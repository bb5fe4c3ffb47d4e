import Rah.Flow.Breaker

/-!
# Probes of a circuit

A request runs the gate and, once it is admitted, records its outcome. Beside the breaker
stands where every request is. A gate that finds the circuit half open lets its request
pass at once, and one that finds the open time over does so whether it wins the swap or
not; nothing remembers that a probe is out, and a request from before the trip that records
late moves the circuit on while the probe is out. `Singly` excludes these. Gates at an open
circuit are free to come and be rejected: that the circuit is open only when no probe is out
follows from what recordings do.
-/

namespace Rah.Flow.Circuit

open Rah.Lib Function

/-- Where a request is, and whether it was admitted while the circuit was open or half open. -/
inductive Stage where
  | away
  | asking
  | admitted (probe : Bool)
  | recording (probe : Bool)

/-- A probe whose outcome is not recorded. -/
def Stage.outstanding : Stage → Bool
  | .admitted probe | .recording probe => probe
  | _ => false

structure Traffic (n : Nat) where
  breaker : State n
  stage : Fin n → Stage

variable {n : Nat} {cfg : Config} {s s' : Traffic n} {t : Fin n}

def Traffic.init (now : Int) : Traffic n := ⟨Circuit.init now, fun _ => .away⟩

/-- Where a request is after an operation of its own. -/
def Stage.next (b : State n) (t : Fin n) (stage : Stage) : Stage :=
  match b.pc t, stage with
  | .idle, .asking => if b.log.head?.any (·.2 = .pass) then .admitted true else .away
  | .idle, .recording _ => .away
  | _, stage => stage

/-- A step of the breaker. A request starts the gate when it is away, and records once it is
admitted. -/
def Traffic.step (cfg : Config) (s : Traffic n) (a : Act n) : Option (Traffic n) :=
  (Circuit.step cfg s.breaker a).bind fun b =>
    let goto t stage := some ⟨b, Function.update s.stage t stage⟩
    match a with
    | .tick _ => some { s with breaker := b }
    | .gate t =>
      match s.stage t, s.breaker.state with
      | .away, .closed => goto t (.admitted false)
      | .away, _ => goto t (Stage.asking.next b t)
      | _, _ => none
    | .record t _ =>
      match s.stage t with
      | .admitted probe => goto t ((Stage.recording probe).next b t)
      | _ => none
    | .run t => goto t ((s.stage t).next b t)

/-- The gate has won the swap, and its request is about to pass. -/
def Pc.swapped : Pc → Bool
  | .gateReset _ => true
  | _ => false

/-- The recording has moved the circuit on and is not done. -/
def Pc.settling : Pc → Bool
  | .tripNow | .tripStore _ | .zeroFailure | .closeZero | .zeroSuccess => true
  | _ => false

/-- The recording may move the circuit on from half open. -/
def Pc.deciding : Pc → Bool
  | .addSuccess | .close => true
  | .trip old => old = .halfOpen
  | _ => false

def probeAt (stage : Stage) (p : Pc) : Bool := stage.outstanding || p.swapped

/-- A probe, or a request that is about to pass as one. -/
def Traffic.probe (s : Traffic n) (u : Fin n) : Bool := probeAt (s.stage u) (s.breaker.pc u)

/-- No gate finds the circuit half open while there is a probe; only probes record at a circuit
that is half open; a gate that swaps finds the circuit open, and every recording that has moved
the circuit on is done. -/
def Singly (s : Traffic n) : Act n → Prop
  | .gate _ => s.breaker.state = .halfOpen → ∀ u, s.probe u = false
  | .record t _ => s.breaker.state = .halfOpen → (s.stage t).outstanding = true
  | .run t => (s.breaker.pc t).probing = true →
    s.breaker.state = .opened ∧ ∀ u, (s.breaker.pc u).settling = false
  | .tick _ => True

instance (s : Traffic n) : (a : Act n) → Decidable (Singly s a)
  | .gate _ => inferInstanceAs (Decidable (_ → _))
  | .record _ _ => inferInstanceAs (Decidable (_ → _))
  | .run _ => inferInstanceAs (Decidable (_ → _))
  | .tick _ => isTrue trivial

/-! ## The invariant -/

/-- The operations of a gate. -/
def Pc.gating : Pc → Bool
  | .gateNow _ | .gateTrip _ _ | .gateSwap _ | .gateReset _ => true
  | _ => false

/-- Where a request is says what it executes. -/
def Stage.Fits : Stage → Pc → Prop
  | .away, p | .admitted _, p => p = .idle
  | .asking, p => p.gating = true
  | .recording _, p => p ≠ .idle ∧ p.gating = false

structure SingleProbe (s : Traffic n) : Prop where
  fits : ∀ u, (s.stage u).Fits (s.breaker.pc u)
  one : ∀ u v, s.probe u = true → s.probe v = true → u = v
  /-- While a probe is out and has not moved the circuit on, the circuit is half open. -/
  half : ∀ u, s.probe u = true → (s.breaker.pc u).settling = false → s.breaker.state = .halfOpen
  /-- Only a probe can move it on. -/
  deciding : ∀ u, (s.breaker.pc u).deciding = true → s.probe u = true

section Moves

variable {b : State n} {p : Pc} {stage : Stage}

/-- A request moves on. A new probe is the only one, and the circuit does not leave its state while
another probe is out that has not moved it on. -/
theorem SingleProbe.move (h : SingleProbe s) (hpc : b.pc = update s.breaker.pc t p)
    (hfit : stage.Fits p)
    (hnew : probeAt stage p = true → s.probe t = true ∨ ∀ u, s.probe u = false)
    (hother : ∀ u, u ≠ t → s.probe u = true → (s.breaker.pc u).settling = false →
      b.state = .halfOpen)
    (hself : probeAt stage p = true → p.settling = false → b.state = .halfOpen)
    (hdec : p.deciding = true → probeAt stage p = true) :
    SingleProbe ⟨b, update s.stage t stage⟩ := by
  have hprobe : ∀ u, Traffic.probe ⟨b, update s.stage t stage⟩ u
      = if u = t then probeAt stage p else s.probe u := by
    intro u
    rw [Traffic.probe, hpc]
    dsimp only
    split
    · subst u
      rw [update_self, update_self]
    · rename_i hne
      rw [update_of_ne hne, update_of_ne hne, Traffic.probe]
  refine ⟨fun u => ?_, fun u v hu hv => ?_, fun u hu hs => ?_, fun u hu => ?_⟩
  · dsimp only
    rw [hpc]
    rcases eq_or_ne u t with rfl | hne
    · rwa [update_self, update_self]
    · rw [update_of_ne hne, update_of_ne hne]
      exact h.fits u
  · rw [hprobe] at hu hv
    split at hu <;> split at hv
    · subst u v
      rfl
    · exact (hnew hu).elim (fun ht => by subst u; exact h.one _ _ ht hv)
        fun hn => absurd hv (by simp [hn])
    · exact (hnew hv).elim (fun ht => by subst v; exact h.one _ _ hu ht)
        fun hn => absurd hu (by simp [hn])
    · exact h.one _ _ hu hv
  · dsimp only at hs
    rw [hprobe] at hu
    rw [hpc] at hs
    split at hu
    · subst u
      rw [update_self] at hs
      exact hself hu hs
    · rename_i hne
      rw [update_of_ne hne] at hs
      exact hother u hne hu hs
  · dsimp only at hu
    rw [hprobe]
    rw [hpc] at hu
    split
    · subst u
      rw [update_self] at hu
      exact hdec hu
    · rename_i hne
      rw [update_of_ne hne] at hu
      exact h.deciding u hu

/-- A move that leaves the circuit's state as it is. -/
theorem SingleProbe.keep (h : SingleProbe s) (hpc : b.pc = update s.breaker.pc t p)
    (hst : b.state = s.breaker.state) (hfit : stage.Fits p)
    (hnew : probeAt stage p = true → s.probe t = true
      ∧ ((s.breaker.pc t).settling = true → p.settling = true))
    (hdec : p.deciding = true → probeAt stage p = true) :
    SingleProbe ⟨b, update s.stage t stage⟩ := by
  refine h.move hpc hfit (fun hp => .inl (hnew hp).1) (fun u _ hu hs => hst ▸ h.half u hu hs)
    (fun hp hs => hst ▸ h.half t (hnew hp).1 ?_) hdec
  by_contra hc
  rw [(hnew hp).2 (by simpa using hc)] at hs
  cases hs

/-- The circuit is moved on: every other probe has moved it on before. -/
theorem SingleProbe.shift (h : SingleProbe s) (hpc : b.pc = update s.breaker.pc t p)
    (hfit : stage.Fits p) (hout : stage.outstanding = true → s.probe t = true)
    (hset : p.settling = true)
    (hdecide : s.breaker.state = .halfOpen → s.probe t = true) :
    SingleProbe ⟨b, update s.stage t stage⟩ := by
  have hsw : p.swapped = false ∧ p.deciding = false := by
    cases p <;> simp_all [Pc.settling, Pc.swapped, Pc.deciding]
  refine h.move hpc hfit (fun hp => .inl (hout (by simpa [probeAt, hsw.1] using hp)))
    (fun u hne hu hs => absurd (h.one u t hu (hdecide (h.half u hu hs))) hne)
    (fun _ hs => by rw [hset] at hs; cases hs) (fun hd => by rw [hsw.2] at hd; cases hd)

end Moves

/-! ### Where a request is next -/

variable {b : State n} {p : Pc}

/-- A request that is not done stays where it is. -/
theorem next_busy {stage : Stage} (hpc : b.pc = update s.breaker.pc t p) (hne : p ≠ .idle)
    (h : SingleProbe ⟨b, update s.stage t stage⟩) :
    SingleProbe ⟨b, update s.stage t (stage.next b t)⟩ := by
  have hn : stage.next b t = stage := by
    unfold Stage.next
    rw [hpc, update_self]
    cases p <;> first | exact absurd rfl hne | rfl
  rwa [hn]

theorem next_recorded (h : SingleProbe s) (hpc : b.pc = update s.breaker.pc t .idle)
    (hst : b.state = s.breaker.state) :
    SingleProbe ⟨b, update s.stage t ((Stage.recording probe).next b t)⟩ := by
  have hn : (Stage.recording probe).next b t = .away := by
    unfold Stage.next
    rw [hpc, update_self]
  rw [hn]
  exact h.keep hpc hst rfl nofun nofun

theorem next_returned (hpc : b.pc = update s.breaker.pc t .idle) (hl : b.log = (w, out) :: l)
    (h : SingleProbe ⟨b, update s.stage t (if out = .pass then .admitted true else .away)⟩) :
    SingleProbe ⟨b, update s.stage t (Stage.asking.next b t)⟩ := by
  have hn : Stage.asking.next b t = if out = .pass then .admitted true else .away := by
    unfold Stage.next
    rw [hpc, update_self, hl]
    simp
  rwa [hn]

theorem Stage.Fits.asking {stage : Stage} (h : stage.Fits p) (hp : p.gating = true) :
    stage = .asking := by
  cases stage with
  | asking => rfl
  | recording probe => exact absurd hp (by simp [h.2])
  | away | admitted probe => exact absurd hp (by simp [show p = .idle from h, Pc.gating])

theorem Stage.Fits.recording {stage : Stage} (h : stage.Fits p) (hne : p ≠ .idle)
    (hp : p.gating = false) : ∃ probe, stage = .recording probe := by
  cases stage with
  | recording probe => exact ⟨probe, rfl⟩
  | asking => exact absurd (show p.gating = true from h) (by simp [hp])
  | away | admitted probe => exact absurd h hne

/-! ### Steps -/

theorem SingleProbe.gate (h : SingleProbe s) (hg : Singly s (.gate t))
    (hs : s.step cfg (.gate t) = some s') : SingleProbe s' := by
  obtain ⟨b, hb, hs⟩ := Option.bind_eq_some_iff.mp hs
  dsimp only at hs
  dsimp only [Circuit.step] at hb
  split at hs
  · -- closed: the request is no probe
    rename_i hst
    rw [hst] at hb
    split at hb <;> cases hb <;> cases hs
    · rename_i hc
      cases hc
    · exact h.keep rfl rfl rfl nofun nofun
  · rename_i hne
    split at hb <;> cases hb <;> cases hs
    · -- open: the gate goes on to look at the time
      exact next_busy rfl nofun (h.keep rfl rfl rfl nofun nofun)
    · -- half open: the request is a probe, and the only one
      rename_i hopen
      have hhalf : s.breaker.state = .halfOpen := by
        cases hst : s.breaker.state with
        | closed => exact absurd hst hne
        | opened => exact absurd hst hopen
        | halfOpen => rfl
      exact next_returned rfl rfl (h.move rfl rfl (fun _ => .inr (hg hhalf)) (fun _ _ _ _ => hhalf)
        (fun _ _ => hhalf) nofun)
  · cases hs

theorem SingleProbe.record (h : SingleProbe s) (hg : Singly s (.record t isSuccess))
    (hs : s.step cfg (.record t isSuccess) = some s') : SingleProbe s' := by
  obtain ⟨b, hb, hs⟩ := Option.bind_eq_some_iff.mp hs
  dsimp only at hs
  dsimp only [Circuit.step] at hb
  split at hb <;> cases hb
  rename_i hidle
  split at hs <;> cases hs
  rename_i probe hst
  have hpr : s.probe t = probe := by
    simp [Traffic.probe, probeAt, hst, hidle, Stage.outstanding, Pc.swapped]
  have hset : (s.breaker.pc t).settling = false := by rw [hidle]; rfl
  cases hstate : s.breaker.state with
  | closed =>
    obtain rfl : probe = false := by
      cases hp : probe with
      | false => rfl
      | true => exact absurd (h.half t (hpr.trans hp) hset) (by simp [hstate])
    cases isSuccess <;> exact next_busy rfl nofun (h.keep rfl rfl ⟨nofun, rfl⟩ nofun nofun)
  | halfOpen =>
    obtain rfl : probe = true := by
      have := hg hstate
      rwa [hst] at this
    have hk : s.probe t = true ∧ ((s.breaker.pc t).settling = true → false = true) :=
      ⟨hpr, fun hc => by rw [hset] at hc; cases hc⟩
    cases isSuccess <;>
      exact next_busy rfl nofun (h.keep rfl rfl ⟨nofun, rfl⟩ (fun _ => hk) (fun _ => rfl))
  | opened => exact next_recorded h rfl rfl

/-- The operations of a gate. -/
theorem SingleProbe.runGate (h : SingleProbe s) (hg : Singly s (.run t))
    (hgate : (s.breaker.pc t).gating = true) (hb : runStep cfg s.breaker t = some b) :
    SingleProbe ⟨b, update s.stage t ((s.stage t).next b t)⟩ := by
  rw [(h.fits t).asking hgate]
  unfold runStep at hb
  cases hpc : s.breaker.pc t with
  | gateNow w =>
    rw [hpc] at hb
    cases hb
    exact next_busy rfl nofun (h.keep rfl rfl rfl nofun nofun)
  | gateTrip w now =>
    rw [hpc] at hb
    dsimp only at hb
    split at hb <;> cases hb
    · exact next_busy rfl nofun (h.keep rfl rfl rfl nofun nofun)
    · have hr : cfg.reject ≠ .pass := by
        unfold Config.reject
        split <;> nofun
      refine next_returned rfl rfl ?_
      rw [if_neg hr]
      exact h.keep rfl rfl rfl nofun nofun
  | gateSwap w =>
    -- no recording is under way, so at an open circuit there is no probe
    obtain ⟨hopen, hset⟩ := hg (by rw [hpc]; rfl)
    have hnone : ∀ u, s.probe u = false := by
      intro u
      by_contra hu
      have := h.half u (by simpa using hu) (hset u)
      simp [hopen] at this
    rw [hpc] at hb
    dsimp only at hb
    rw [if_pos hopen] at hb
    cases hb
    exact next_busy rfl nofun (h.move rfl rfl (fun _ => .inr hnone)
      (fun u _ hu _ => absurd hu (by simp [hnone u])) (fun _ _ => rfl) nofun)
  | gateReset w =>
    have hp : s.probe t = true := by simp [Traffic.probe, probeAt, hpc, Pc.swapped]
    rw [hpc] at hb
    cases hb
    exact next_returned rfl rfl
      (h.keep rfl rfl rfl (fun _ => ⟨hp, fun hc => by rw [hpc] at hc; cases hc⟩) nofun)
  | _ =>
    rw [hpc] at hgate
    cases hgate

/-- The operations of a recording. -/
theorem SingleProbe.runRecord (h : SingleProbe s) (hne : s.breaker.pc t ≠ .idle)
    (hgate : (s.breaker.pc t).gating = false) (hb : runStep cfg s.breaker t = some b) :
    SingleProbe ⟨b, update s.stage t ((s.stage t).next b t)⟩ := by
  obtain ⟨probe, hst⟩ := (h.fits t).recording hne hgate
  rw [hst]
  have hpr : (Stage.recording probe).outstanding = true → s.probe t = true := by
    intro ho
    simp [Traffic.probe, probeAt, hst, ho]
  have hout : ∀ {q : Pc}, q.swapped = false → probeAt (.recording probe) q = true →
      s.probe t = true := by
    intro q hq hp
    exact hpr (by simpa [probeAt, hq] using hp)
  have hdec : (s.breaker.pc t).deciding = true → s.probe t = true := h.deciding t
  have hself : s.probe t = true → (Stage.recording probe).outstanding = true := by
    intro hp
    cases hpc : s.breaker.pc t <;> simp_all [Traffic.probe, probeAt, Pc.swapped, Pc.gating]
  unfold runStep at hb
  cases hpc : s.breaker.pc t with
  | addFailure =>
    rw [hpc] at hb
    cases hb
    by_cases hc : cfg.failureThreshold ≤ s.breaker.failureCount + 1
    · rw [if_pos hc]
      exact next_busy rfl nofun (h.keep rfl rfl ⟨nofun, rfl⟩
        (fun hp => ⟨hout rfl hp, fun hs => by rw [hpc] at hs; cases hs⟩) nofun)
    · rw [if_neg hc]
      exact next_recorded h rfl rfl
  | trip old =>
    rw [hpc] at hb hdec
    dsimp only at hb
    split at hb <;> cases hb
    · rename_i hold
      exact next_busy rfl nofun (h.shift rfl ⟨nofun, rfl⟩ hpr rfl
        (fun hh => hdec (decide_eq_true (hold.symm.trans hh))))
    · exact next_recorded h rfl rfl
  | tripNow | tripStore now | closeZero =>
    rw [hpc] at hb
    cases hb
    exact next_busy rfl nofun (h.keep rfl rfl ⟨nofun, rfl⟩ (fun hp => ⟨hout rfl hp, fun _ => rfl⟩)
      nofun)
  | addSuccess =>
    rw [hpc] at hb hdec
    cases hb
    by_cases hc : cfg.successThreshold ≤ s.breaker.successCount + 1
    · rw [if_pos hc]
      exact next_busy rfl nofun (h.keep rfl rfl ⟨nofun, rfl⟩
        (fun hp => ⟨hout rfl hp, fun hs => by rw [hpc] at hs; cases hs⟩)
        (fun _ => by simp [probeAt, hself (hdec rfl)]))
    · rw [if_neg hc]
      exact next_recorded h rfl rfl
  | close =>
    rw [hpc] at hb hdec
    dsimp only at hb
    split at hb <;> cases hb
    · exact next_busy rfl nofun (h.shift rfl ⟨nofun, rfl⟩ hpr rfl (fun _ => hdec rfl))
    · exact next_recorded h rfl rfl
  | zeroFailure | zeroSuccess =>
    rw [hpc] at hb
    cases hb
    exact next_recorded h rfl rfl
  | idle => exact absurd hpc hne
  | gateNow w | gateTrip w now | gateSwap w | gateReset w =>
    rw [hpc] at hgate
    cases hgate

theorem SingleProbe.step (h : SingleProbe s) (hg : Singly s a) (hs : s.step cfg a = some s') :
    SingleProbe s' := by
  cases a with
  | tick ns =>
    cases hs
    exact { h with }
  | gate t => exact h.gate hg hs
  | record t isSuccess => exact h.record hg hs
  | run t =>
    obtain ⟨b, hb, hs⟩ := Option.bind_eq_some_iff.mp hs
    cases hs
    have hb : runStep cfg s.breaker t = some b := hb
    cases hgate : (s.breaker.pc t).gating with
    | true => exact h.runGate hg hgate hb
    | false =>
      refine h.runRecord (fun hi => ?_) hgate hb
      rw [runStep, hi] at hb
      cases hb

/-- **At most one probe is outstanding**, in every run where a gate finds the circuit half open only
when no probe is out, only probes record there, and a gate that swaps finds the circuit open and
settled. -/
theorem oneProbe_outstanding (cfg : Config) (now : Int) (acts : List (Act n)) (s : Traffic n)
    (hrun : GoodRun (fun s a s' => s.step cfg a = some s') Singly (.init now) acts s) (u v : Fin n)
    (hu : (s.stage u).outstanding = true) (hv : (s.stage v).outstanding = true) : u = v := by
  have hstart : SingleProbe (.init now : Traffic n) := ⟨fun _ => rfl, nofun, nofun, nofun⟩
  have hi : SingleProbe s := GoodRun.invariant (fun h ho hs => h.step ho hs) hrun hstart
  exact hi.one u v (by simp [Traffic.probe, probeAt, hu]) (by simp [Traffic.probe, probeAt, hv])

/-- A request fails and opens the circuit for ten nanoseconds; it comes again at once and is
rejected. The next one comes later and is a probe. -/
def probeAfterTrip (u v : Fin n) : List (Act n) :=
  [.gate u, .record u false, .run u, .run u, .run u, .run u, .run u, .gate u, .run u, .run u,
    .tick 10, .gate v, .run v, .run v, .run v, .run v]

theorem oneProbe_afterTrip : ∃ s : Traffic 2, GoodRun
    (fun s a s' => Traffic.step ⟨1, 1, 10, -1⟩ s a = some s') Singly (.init 100)
      (probeAfterTrip 0 1) s
      ∧ s.breaker.log.map Prod.snd = [.pass, .unavailable, .pass]
      ∧ (s.stage 1).outstanding = true ∧ ∀ u, (s.stage u).outstanding = true → u = 1 := by
  obtain ⟨s, hr, hl, ho⟩ : ∃ s, (probeAfterTrip (n := 2) 0 1).foldlM (fun s a =>
      if Singly s a then Traffic.step ⟨1, 1, 10, -1⟩ s a else none) (.init 100) = some s
      ∧ s.breaker.log.map Prod.snd = [.pass, .unavailable, .pass]
      ∧ (s.stage 1).outstanding = true := ⟨_, rfl, rfl, rfl⟩
  have hg := GoodRun.of_checked hr
  exact ⟨s, hg, hl, ho, fun u hu => oneProbe_outstanding _ 100 _ s hg u 1 hu ho⟩

/-- **Two probes are outstanding**: the second comes while the circuit is half open. -/
theorem second_probe : ∃ s : Traffic 2, (probeAfterTrip 0 1 ++ [Act.gate 0]).foldlM
      (Traffic.step ⟨1, 1, 10, -1⟩) (.init 100) = some s
    ∧ (s.stage 0).outstanding = true ∧ (s.stage 1).outstanding = true :=
  ⟨_, rfl, rfl, rfl⟩

end Rah.Flow.Circuit
