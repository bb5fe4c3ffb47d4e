import Rah.Lib.Run
import Rah.Pool.Model

/-!
# A pooled context has one owner

A context is in one of three kinds of places: a slot of the pool, the hands of a caller
that is putting it back, or the possession of the caller that got it. The pool is right
as long as no context is in two places, since a `Get` hands out what a slot holds.

Pop and push do not exclude each other, and two interleavings break this. A pop that
wins its swap while a push has loaded the count and not stored it is undone by the
store: the slot it took counts as filled again. And a push that writes a slot which a
pop has won and not yet read gives the pop its own context, which then stands in the
pool as well. `Calm` excludes these two, and in every run of calm steps each context has
one owner.
-/

namespace Rah.Pool

open Rah.Lib Pc List
open State (goto)

/-! ## The operations of a step -/

/-- What the next operation of a caller can be, and the state after it. -/
inductive Op (s : State) (t : Nat) : State → Prop where
  | fresh : s.pc t = .getLoad → s.count = 0 →
      Op s t { s.goto t .idle with next := s.next + 1, log := .got t s.next :: s.log }
  | load : s.pc t = .getLoad → s.count ≠ 0 → Op s t (s.goto t (.getSwap s.count))
  | swap {n : Nat} : s.pc t = .getSwap n → s.count = n →
      Op s t { s.goto t (.getRead (n - 1)) with count := n - 1 }
  | retry {n : Nat} : s.pc t = .getSwap n → s.count ≠ n → Op s t (s.goto t .getLoad)
  | read {i : Nat} : s.pc t = .getRead i →
      Op s t { s.goto t .idle with log := .got t (s.items i) :: s.log }
  | lock {c : Nat} : s.pc t = .putLock c → s.lock = none →
      Op s t { s.goto t (.putLoad c) with lock := some t }
  | push {c : Nat} : s.pc t = .putLoad c → s.count < cap →
      Op s t (s.goto t (.putWrite c s.count))
  | full {c : Nat} : s.pc t = .putLoad c → ¬ s.count < cap → Op s t (s.goto t .putUnlock)
  | write {c n : Nat} : s.pc t = .putWrite c n →
      Op s t { s.goto t (.putStore n) with items := fun i => if i = n then c else s.items i }
  | store {n : Nat} : s.pc t = .putStore n → Op s t { s.goto t .putUnlock with count := n + 1 }
  | unlock : s.pc t = .putUnlock → Op s t { s.goto t .idle with lock := none }

variable {s s' : State} {t count j u : Nat} {a : Act} {p : Pc}

theorem runStep_op (h : runStep s t = some s') : Op s t s' := by
  unfold runStep at h
  cases hpc : s.pc t with
  | idle => rw [hpc] at h; exact absurd h (by simp)
  | getLoad =>
    rw [hpc] at h
    dsimp only at h
    split at h <;> cases h
    · exact .fresh hpc ‹_›
    · exact .load hpc ‹_›
  | getSwap n =>
    rw [hpc] at h
    dsimp only at h
    split at h <;> cases h
    · exact .swap hpc ‹_›
    · exact .retry hpc ‹_›
  | getRead i => rw [hpc] at h; cases h; exact .read hpc
  | putLock c =>
    rw [hpc] at h
    dsimp only at h
    split at h <;> cases h
    exact .lock hpc ‹_›
  | putLoad c =>
    rw [hpc] at h
    dsimp only at h
    split at h <;> cases h
    · exact .push hpc ‹_›
    · exact .full hpc ‹_›
  | putWrite c n => rw [hpc] at h; cases h; exact .write hpc
  | putStore n => rw [hpc] at h; cases h; exact .store hpc
  | putUnlock => rw [hpc] at h; cases h; exact .unlock hpc

/-- What a step can be. -/
inductive Did (s : State) : Act → State → Prop where
  | callGet {t : Nat} : s.pc t = .idle → Did s (.callGet t) (s.goto t .getLoad)
  | callPut {t c : Nat} : s.pc t = .idle → holds t c s.log = true →
      Did s (.callPut t c) { s.goto t (.putLock c) with log := .put t c :: s.log }
  | run {t : Nat} {s' : State} : Op s t s' → Did s (.run t) s'

theorem step_did (h : step s a = some s') : Did s a s' := by
  cases a with
  | callGet t =>
    rw [step] at h
    split at h <;> cases h
    exact .callGet ‹_›
  | callPut t c =>
    rw [step] at h
    split at h <;> cases h
    rename_i hi
    exact .callPut hi.1 hi.2
  | run t => exact .run (runStep_op h)

/-! ## The condition on steps -/

/-- The caller has loaded the count for a push and not stored it yet. -/
def Pc.pushing : Pc → Bool
  | .putWrite _ _ => true
  | .putStore _ => true
  | _ => false

/-- No pop wins while a push is between its load and its store, and no push writes a slot
that a pop has won and not read. -/
def Calm (s : State) : Act → Prop
  | .run t => (∀ n, s.pc t = .getSwap n → s.count = n → ∀ u, (s.pc u).pushing = false)
      ∧ ∀ c n, s.pc t = .putWrite c n → ∀ u, s.pc u ≠ .getRead n
  | _ => True

/-! ## Control -/

/-- The caller is inside the critical section of `Put`. -/
def Pc.locked : Pc → Bool
  | .putLoad _ => true
  | .putWrite _ _ => true
  | .putStore _ => true
  | .putUnlock => true
  | _ => false

/-- What the callers' positions say about the count and the mutex. -/
structure Control (count : Nat) (lock : Option Nat) (pc : Nat → Pc) : Prop where
  count_le : count ≤ cap
  mutex : ∀ t, (pc t).locked = true → lock = some t
  swap : ∀ t n, pc t = .getSwap n → n ≠ 0
  write : ∀ t c n, pc t = .putWrite c n → n = count ∧ n < cap
  store : ∀ t n, pc t = .putStore n → n = count ∧ n < cap
  /-- Slots that were won and not read lie above the count. -/
  read : ∀ t i, pc t = .getRead i → count ≤ i ∧ i < cap
  readUnique : ∀ t u i, pc t = .getRead i → pc u = .getRead i → t = u
  readStore : ∀ t u i, pc t = .getRead i → pc u ≠ .putStore i

/-- One caller's move, to a position other than a won slot, with count and mutex unchanged. -/
theorem Control.goto (h : Control count lock pc) (hl : p.locked = true → lock = some t)
    (hsw : ∀ n, p = .getSwap n → n ≠ 0) (hw : ∀ c n, p = .putWrite c n → n = count ∧ n < cap)
    (hs : ∀ n, p = .putStore n → n = count ∧ n < cap ∧ ∀ u, pc u ≠ .getRead n)
    (hr : ∀ i, p ≠ .getRead i) : Control count lock (fun u => if u = t then p else pc u) := by
  refine ⟨h.count_le, ?_, ?_, ?_, ?_, ?_, ?_, ?_⟩
  · intro u hu
    split at hu
    · exact ‹u = t› ▸ hl hu
    · exact h.mutex u hu
  · intro u n hu
    split at hu
    · exact hsw n hu
    · exact h.swap u n hu
  · intro u c n hu
    split at hu
    · exact hw c n hu
    · exact h.write u c n hu
  · intro u n hu
    split at hu
    · obtain ⟨h1, h2, _⟩ := hs n hu
      exact ⟨h1, h2⟩
    · exact h.store u n hu
  · intro u i hu
    split at hu
    · exact absurd hu (hr i)
    · exact h.read u i hu
  · intro u v i hu hv
    split at hu
    · exact absurd hu (hr i)
    split at hv
    · exact absurd hv (hr i)
    · exact h.readUnique u v i hu hv
  · intro u v i hu hv
    split at hu
    · exact hr i hu
    split at hv
    · exact (hs i hv).2.2 u hu
    · exact h.readStore u v i hu hv

def State.Control (s : State) : Prop := Pool.Control s.count s.lock s.pc

theorem control_op (h : s.Control) (hcl : Calm s (.run t)) (hop : Op s t s') : s'.Control := by
  have ⟨h1, h2, h3, h4, h5, h6, h7, h8⟩ := h
  cases hop with
  | fresh hpc hz | retry hpc hn | read hpc =>
    exact h.goto (by simp [locked]) (by simp) (by simp) (by simp) (by simp)
  | load hpc hz =>
    exact h.goto (by simp [locked]) (fun n hn => by cases hn; exact hz) (by simp) (by simp)
      (by simp)
  | swap hpc hn =>
    -- no push is under way, so the smaller count disturbs nobody
    rename_i n
    have hq := hcl.1 n hpc hn
    constructor <;> simp only [goto] <;> grind [locked, pushing]
  | lock hpc hl | store hpc | unlock hpc =>
    -- the mutex was free or is the thread's, so nobody else is inside
    constructor <;> simp only [goto] <;> grind [locked]
  | push hpc hc =>
    exact h.goto (fun _ => h.mutex t (by rw [hpc]; rfl)) (by simp)
      (fun c n hn => by cases hn; exact ⟨rfl, hc⟩) (by simp) (by simp)
  | full hpc hc =>
    exact h.goto (fun _ => h.mutex t (by rw [hpc]; rfl)) (by simp) (by simp) (by simp) (by simp)
  | write hpc =>
    rename_i c n
    obtain ⟨hn, hcp⟩ := h.write t c n hpc
    exact h.goto (fun _ => h.mutex t (by rw [hpc]; rfl)) (by simp) (by simp)
      (fun m hm => by cases hm; exact ⟨hn, hcp, hcl.2 c n hpc⟩) (by simp)


theorem control_step (h : s.Control) (hc : Calm s a) (hs : step s a = some s') : s'.Control := by
  cases step_did hs with
  | callGet hi | callPut hi hh =>
    exact h.goto (by simp [locked]) (by simp) (by simp) (by simp) (by simp)
  | run hop => exact control_op h hc hop

/-! ## Places -/

/-- The context a caller is about to put back. -/
def Pc.hand : Pc → Option Nat
  | .putLock c => some c
  | .putLoad c => some c
  | .putWrite c _ => some c
  | _ => none

/-- A slot that holds a context: below the count, won by a pop, or just written by a push. -/
def Live (s : State) (j : Nat) : Prop :=
  j < s.count ∨ (∃ t, s.pc t = .getRead j) ∨ ∃ t, s.pc t = .putStore j

/-- Where a context can be. -/
inductive Place where
  | slot (j : Nat)
  | hand (t : Nat)
  | held (t c : Nat)

/-- The context is in the place. -/
def At (s : State) : Place → Nat → Prop
  | .slot j, c => Live s j ∧ s.items j = c
  | .hand t, c => (s.pc t).hand = some c
  | .held t c', c => c' = c ∧ holds t c s.log = true

/-- No context is in two places, and all were made by `newFn`. -/
structure Placed (s : State) : Prop where
  unique : ∀ p q c, At s p c → At s q c → p = q
  made : ∀ p c, At s p c → c < s.next

/-- What is where now was there before. -/
theorem Placed.of_sub (h : Placed s) (hs : ∀ p c, At s' p c → At s p c)
    (hn : s.next ≤ s'.next) : Placed s' :=
  ⟨fun p q c hp hq => h.unique p q c (hs p c hp) (hs q c hq),
    fun p c hp => Nat.lt_of_lt_of_le (h.made p c (hs p c hp)) hn⟩

/-- What is new in `p0`, which was empty, is nowhere else. -/
theorem Placed.of_new (h : Placed s) (p0 : Place)
    (hn : ∀ c, At s' p0 c → c < s'.next ∧ ∀ q, q ≠ p0 → ¬ At s' q c)
    (hs : ∀ p c, p ≠ p0 → At s' p c → At s p c) (hnx : s.next ≤ s'.next) : Placed s' := by
  refine ⟨fun p q c hp hq => ?_, fun p c hp => ?_⟩
  · by_cases hpp : p = p0
    · subst hpp
      by_contra hne
      exact (hn c hp).2 q (Ne.symm hne) hq
    by_cases hqp : q = p0
    · subst hqp
      exact absurd hp ((hn c hq).2 p hpp)
    · exact h.unique p q c (hs p c hpp hp) (hs q c hqp hq)
  · by_cases hpp : p = p0
    · exact (hn c (hpp ▸ hp)).1
    · exact Nat.lt_of_lt_of_le (h.made p c (hs p c hpp hp)) hnx

/-- A context moves from `q0` to `p0`, which was empty. -/
theorem Placed.of_move (h : Placed s) (p0 q0 : Place)
    (hnw : ∀ c, At s' p0 c → At s q0 c ∧ ¬ At s' q0 c)
    (hs : ∀ p c, p ≠ p0 → At s' p c → At s p c) (hn : s.next ≤ s'.next) : Placed s' := by
  refine h.of_new p0 (fun c hc => ?_) hs hn
  obtain ⟨hf, hg⟩ := hnw c hc
  refine ⟨Nat.lt_of_lt_of_le (h.made q0 c hf) hn, fun q hq hat => hg ?_⟩
  rwa [h.unique q0 q c hf (hs q c hq hat)]

/-- A context that did not exist before appears in `p0`, which was empty. -/
theorem Placed.of_fresh (h : Placed s) (p0 : Place) (hnw : ∀ c, At s' p0 c → c = s.next)
    (hs : ∀ p c, p ≠ p0 → At s' p c → At s p c) (hn : s.next < s'.next) : Placed s' := by
  refine h.of_new p0 (fun c hc => ?_) hs (by omega)
  rw [hnw c hc]
  exact ⟨hn, fun q hq hat => Nat.lt_irrefl _ (h.made q _ (hs q _ hq hat))⟩

/-- The caller stands at a slot of the pool. -/
def Pc.atSlot : Pc → Option Nat
  | .getRead i => some i
  | .putStore i => some i
  | _ => none

theorem live_iff : Live s j ↔ j < s.count ∨ ∃ t, (s.pc t).atSlot = some j := by
  refine or_congr_right ?_
  constructor
  · rintro (⟨t, ht⟩ | ⟨t, ht⟩)
    · exact ⟨t, by rw [ht]; rfl⟩
    · exact ⟨t, by rw [ht]; rfl⟩
  rintro ⟨t, ht⟩
  cases hpc : s.pc t with
  | getRead i =>
    rw [hpc] at ht
    cases ht
    exact .inl ⟨t, hpc⟩
  | putStore i =>
    rw [hpc] at ht
    cases ht
    exact .inr ⟨t, hpc⟩
  | _ => rw [hpc] at ht; exact absurd ht (by simp [atSlot])

/-- A caller's move away from the slots, or to one that was live, makes no slot live. -/
theorem live_goto (hc : j < count → Live s j) (hp : p.atSlot = some j → Live s j)
    (h : j < count ∨ ∃ u, (if u = t then p else s.pc u).atSlot = some j) : Live s j := by
  rcases h with hj | ⟨u, hu⟩
  · exact hc hj
  split at hu
  · exact hp hu
  · exact live_iff.mpr (.inr ⟨u, hu⟩)

/-- What is in a place after one caller's move was there before, if the move did not put it
there. -/
theorem at_of_goto (hpc : s'.pc = fun u => if u = t then p else s.pc u) (hslot : ∀ j, q = .slot j →
      s'.items j = s.items j ∧ (j < s'.count → Live s j) ∧ (p.atSlot = some j → Live s j))
    (hhand : q = .hand t → p.hand = some c → (s.pc t).hand = some c)
    (hheld : ∀ u, q = .held u c → holds u c s'.log = true → holds u c s.log = true)
    (h : At s' q c) : At s q c := by
  cases q with
  | slot j =>
    obtain ⟨hl, hc⟩ := h
    obtain ⟨hi, hcn, hp⟩ := hslot j rfl
    rw [live_iff, hpc] at hl
    exact ⟨live_goto hcn hp hl, hi ▸ hc⟩
  | hand u =>
    have hu : (s'.pc u).hand = some c := h
    rw [hpc] at hu
    dsimp only at hu
    split at hu
    · subst u
      exact hhand rfl hu
    · exact hu
  | held u c' =>
    obtain ⟨rfl, hu⟩ := h
    exact ⟨rfl, hheld u rfl hu⟩

/-- A `Get` that returns `c0` puts nothing anywhere but in the caller's possession. -/
theorem at_of_got (hpc : s'.pc = fun u => if u = t then .idle else s.pc u)
    (hitems : s'.items = s.items) (hlog : s'.log = .got t c0 :: s.log)
    (hcount : s'.count = s.count) :
    ∀ q c, q ≠ .held t c0 → At s' q c → At s q c := by
  intro q c hq
  refine at_of_goto hpc (fun j _ => ⟨by rw [hitems],
    fun hj => .inl (hcount ▸ hj), by simp [atSlot]⟩)
    (by simp [hand]) (fun u he hu => ?_)
  rw [hlog, holds, Bool.or_eq_true] at hu
  rcases hu with hu | hu
  · simp only [Bool.and_eq_true, decide_eq_true_eq] at hu
    exact absurd (by rw [he, hu.1, hu.2]) hq
  · exact hu

/-- A move of one caller, with nothing new in its hand. -/
theorem Placed.goto (h : Placed s) (hpc : s'.pc = fun u => if u = t then p else s.pc u)
    (hi : s'.items = s.items) (hl : s'.log = s.log) (hn : s'.next = s.next)
    (hc : ∀ j, j < s'.count → Live s j) (hs : ∀ j, p.atSlot = some j → Live s j)
    (hh : ∀ c, p.hand = some c → (s.pc t).hand = some c) : Placed s' :=
  h.of_sub (fun _ c => at_of_goto hpc (fun j _ => ⟨by rw [hi], hc j, hs j⟩)
    (fun _ => hh c) (fun _ _ hu => hl ▸ hu)) (by omega)

theorem placed_op (hct : s.Control) (h : Placed s) (hop : Op s t s') : Placed s' := by
  cases hop with
  | fresh hpc hz =>
    exact h.of_fresh (.held t s.next) (fun c hc => hc.1.symm) (at_of_got rfl rfl rfl rfl)
      (Nat.lt_succ_self _)
  | load hpc hz | retry hpc hn | full hpc hc | unlock hpc =>
    exact h.goto rfl rfl rfl rfl (fun _ => .inl) (by simp [atSlot]) (by simp [hand])
  | swap hpc hn =>
    -- the slot won was below the count
    rename_i n
    have hnz := hct.swap t n hpc
    refine h.goto rfl rfl rfl rfl (fun j hj => .inl ?_) (fun j hj => .inl ?_) (by simp [hand])
    · have hj' : j < n - 1 := hj
      omega
    · have hj' : n - 1 = j := Option.some.inj hj
      omega
  | read hpc =>
    -- the context goes from the slot to the caller, and the slot is nobody's now
    rename_i i
    obtain ⟨hle, _⟩ := hct.read t i hpc
    refine h.of_move (.held t (s.items i)) (.slot i) ?_ (at_of_got rfl rfl rfl rfl) (Nat.le_refl _)
    rintro c ⟨rfl, _⟩
    refine ⟨⟨.inr (.inl ⟨t, hpc⟩), rfl⟩, ?_⟩
    rintro ⟨hl, _⟩
    rcases hl with hl | ⟨u, hu⟩ | ⟨u, hu⟩
    · exact absurd hl (Nat.not_lt.mpr hle)
    · by_cases hut : u = t
      · simp [goto, hut] at hu
      · have hu' : s.pc u = .getRead i := by simpa [goto, hut] using hu
        exact hut (hct.readUnique u t i hu' hpc)
    · by_cases hut : u = t
      · simp [goto, hut] at hu
      · have hu' : s.pc u = .putStore i := by simpa [goto, hut] using hu
        exact hct.readStore t u i hpc hu'
  | lock hpc hl | push hpc hc =>
    exact h.goto rfl rfl rfl rfl (fun _ => .inl) (by simp [atSlot]) (by rw [hpc]; simp [hand])
  | write hpc =>
    -- from the caller's hand into the slot
    rename_i c0 n
    refine h.of_move (.slot n) (.hand t) ?_ (fun q c hq => ?_) (Nat.le_refl _)
    · rintro c ⟨_, hc⟩
      have hc' : c0 = c := by simpa using hc
      refine ⟨?_, by simp [At, goto, hand]⟩
      show (s.pc t).hand = some c
      rw [hpc, ← hc']
      rfl
    · refine at_of_goto rfl (fun j he => ?_) (by simp [hand]) (fun _ _ => id)
      have hjn : j ≠ n := fun hj => hq (by rw [he, hj])
      exact ⟨if_neg hjn, .inl, fun hj => absurd (Option.some.inj hj).symm hjn⟩
  | store hpc =>
    -- the slot written becomes a slot below the count
    rename_i n
    obtain ⟨hn, _⟩ := hct.store t n hpc
    refine h.goto rfl rfl rfl rfl (fun j hj => ?_) (by simp [atSlot]) (by simp [hand])
    have hj' : j < n + 1 := hj
    by_cases hjn : j = n
    · subst hjn
      exact .inr (.inr ⟨t, hpc⟩)
    · exact .inl (by omega)

theorem placed_step (hctl : s.Control) (h : Placed s) (hstep : step s a = some s') : Placed s' := by
  cases step_did hstep with
  | callGet hidle =>
    exact h.goto rfl rfl rfl rfl (fun _ => .inl) (by simp [atSlot]) (by simp [hand])
  | callPut hidle hh =>
    -- from the caller's possession into its hand
    rename_i t c0
    refine h.of_move (.hand t) (.held t c0) ?_ (fun q c hq => ?_) (Nat.le_refl _)
    · intro c hc
      have hc' : (if t = t then putLock c0 else s.pc t).hand = some c := hc
      rw [if_pos rfl] at hc'
      cases hc'
      refine ⟨⟨rfl, hh⟩, ?_⟩
      rintro ⟨_, hh'⟩
      simp [holds] at hh'
    · refine at_of_goto rfl (fun j _ => ⟨rfl, .inl, by simp [atSlot]⟩)
        (fun he => absurd he hq) (fun u _ hu => ?_)
      rw [holds, Bool.and_eq_true] at hu
      exact hu.2
  | run hop => exact placed_op hctl h hop

/-! ## The log -/

/-- Between two `Get`s that return the same context, the caller of the first one put it. The
log is newest first. -/
def OneOwner (log : List Event) : Prop :=
  ∀ l₁ l₂ l₃ t t' c, log = l₁ ++ .got t' c :: (l₂ ++ .got t c :: l₃) → .put t c ∈ l₂

theorem holds_of_got : ∀ {l₂ l₃ : List Event}, .put t c ∉ l₂ →
    holds t c (l₂ ++ .got t c :: l₃) = true
  | [], _, _ => by simp [holds]
  | .got t' c' :: l₂, l₃, h => by
    have hrec : holds t c (l₂ ++ .got t c :: l₃) = true :=
      holds_of_got (fun hm => h (mem_cons_of_mem _ hm))
    rw [cons_append, holds, hrec, Bool.or_true]
  | .put t' c' :: l₂, l₃, h => by
    have hrec : holds t c (l₂ ++ .got t c :: l₃) = true :=
      holds_of_got (fun hm => h (mem_cons_of_mem _ hm))
    have hne : ¬ (t' = t ∧ c' = c) := by
      rintro ⟨rfl, rfl⟩
      exact h (by simp)
    rw [cons_append, holds, hrec]
    simp only [Bool.and_true, Bool.not_eq_true', Bool.and_eq_false_iff, decide_eq_false_iff_not]
    exact not_and_or.mp hne

/-- A new entry keeps the log right if what it hands out is held by nobody. -/
theorem oneOwner_cons (h : OneOwner log)
    (hfree : ∀ t c, e = .got t c → ∀ u, holds u c log = false) :
    OneOwner (e :: log) := by
  intro l₁ l₂ l₃ t t' c he
  cases l₁ with
  | nil =>
    rw [nil_append, cons.injEq] at he
    by_contra hnot
    have hh : holds t c (l₂ ++ .got t c :: l₃) = true := holds_of_got hnot
    rw [← he.2, hfree t' c he.1 t] at hh
    cases hh
  | cons a l₁ =>
    rw [cons_append, cons.injEq] at he
    exact h l₁ l₂ l₃ t t' c he.2

theorem oneOwner_step (hp : Placed s) (h : OneOwner s.log)
    (hstep : step s a = some s') : OneOwner s'.log := by
  cases step_did hstep with
  | callGet hi => exact h
  | callPut hi hh => exact oneOwner_cons h (by simp)
  | run hop =>
  rename_i t
  cases hop with
  | fresh hpc hz =>
    refine oneOwner_cons h (fun u c he v => ?_)
    cases he
    by_contra hv
    have := hp.made (.held v s.next) s.next ⟨rfl, by simpa using hv⟩
    omega
  | read hpc =>
    rename_i i
    refine oneOwner_cons h (fun u c he v => ?_)
    cases he
    by_contra hv
    have := hp.unique (.slot i) (.held v (s.items i)) (s.items i)
      ⟨.inr (.inl ⟨t, hpc⟩), rfl⟩ ⟨rfl, by simpa using hv⟩
    cases this
  | load hpc hz | swap hpc hn | retry hpc hn | lock hpc hl | push hpc hc | full hpc hc
  | write hpc | store hpc | unlock hpc => exact h

/-! ## Runs -/

/-- Everything a calm run keeps. -/
structure Inv (s : State) : Prop where
  control : s.Control
  placed : Placed s
  owner : OneOwner s.log

theorem inv_init : Inv init := by
  refine ⟨⟨Nat.le_refl _, ?_, ?_, ?_, ?_, ?_, ?_, ?_⟩, ⟨?_, ?_⟩, ?_⟩
  · intro t h; simp [init, locked] at h
  · intro t n h; simp [init] at h
  · intro t c n h; simp [init] at h
  · intro t n h; simp [init] at h
  · intro t i h; simp [init] at h
  · intro t u i h; simp [init] at h
  · intro t u i h; simp [init] at h
  · intro p q c hp hq
    cases p with
    | slot j =>
      cases q with
      | slot k => rw [show j = c from hp.2, show k = c from hq.2]
      | hand u => simp [At, init, hand] at hq
      | held u c' => simp [At, init, holds] at hq
    | hand u => simp [At, init, hand] at hp
    | held u c' => simp [At, init, holds] at hp
  · intro p c hp
    cases p with
    | slot j =>
      obtain ⟨hl, hc⟩ := hp
      have hjc : j = c := hc
      rcases hl with hl | ⟨u, hu⟩ | ⟨u, hu⟩
      · exact hjc ▸ hl
      · simp [init] at hu
      · simp [init] at hu
    | hand u => simp [At, init, hand] at hp
    | held u c' => simp [At, init, holds] at hp
  · intro l₁ l₂ l₃ t t' c h
    simp [init] at h

theorem inv_step (h : Inv s) (hc : Calm s a) (hs : step s a = some s') : Inv s' :=
  ⟨control_step h.control hc hs, placed_step h.control h.placed hs,
    oneOwner_step h.placed h.owner hs⟩

/-- A run of the pool from its construction, each step meeting the condition. -/
def PoolRun (good : State → Act → Prop) (acts : List Act) (s : State) : Prop :=
  GoodRun (fun s a s' => step s a = some s') good init acts s

/-- **A pooled context has one owner**, in every state of every run of calm steps. -/
theorem oneOwner_of_calm (acts : List Act) (s : State) (h : PoolRun Calm acts s) : OneOwner s.log :=
  (GoodRun.invariant (fun hi hg hs => inv_step hi hg hs) h inv_init).owner

/-! ## Some callers -/

def Act.caller : Act → Nat
  | .callGet t => t
  | .callPut t _ => t
  | .run t => t

theorem step_pc_of_ne (h : step s a = some s') (hu : u ≠ a.caller) : s'.pc u = s.pc u := by
  cases step_did h with
  | callGet hi | callPut hi hh => exact if_neg hu
  | run hop => cases hop <;> exact if_neg hu

/-- While all others are idle, whatever a caller does is calm. -/
theorem calm_of_idle (h : ∀ u, u ≠ a.caller → s.pc u = .idle) : Calm s a := by
  cases a with
  | callGet t | callPut t c => trivial
  | run t =>
  refine ⟨fun n hn _ u => ?_, fun c n hn u => ?_⟩
  · by_cases hu : u = t
    · rw [hu, hn]
      rfl
    · rw [h u hu]
      rfl
  · by_cases hu : u = t
    · rw [hu, hn]
      simp
    · rw [h u hu]
      simp

/-- **A caller on its own** only makes calm steps. -/
theorem calm_run_of_single (ht : ∀ a ∈ acts, a.caller = t) (hi : ∀ u, u ≠ t → s.pc u = .idle)
    (hrn : acts.foldlM step s = some s') :
    GoodRun (fun s a s' => step s a = some s') Calm s acts s' := by
  induction acts generalizing s with
  | nil =>
    cases hrn
    exact .nil _
  | cons a acts ih =>
    have hat : a.caller = t := ht a (by simp)
    obtain ⟨s1, hs, hr⟩ := Option.bind_eq_some_iff.mp hrn
    refine .cons (calm_of_idle (by rw [hat]; exact hi)) hs ?_
    refine ih (fun b hb => ht b (by simp [hb])) (fun u hu => ?_) hr
    rw [step_pc_of_ne hs (by rw [hat]; exact hu)]
    exact hi u hu

/-- The condition of a step as far as the callers below `n` are concerned. -/
def calmAmong (n : Nat) (s : State) (a : Act) : Bool :=
  a.caller < n && match a with
    | .run t => match s.pc t with
      | .getSwap m => s.count ≠ m || (List.range n).all fun u => !(s.pc u).pushing
      | .putWrite _ m => (List.range n).all fun u => s.pc u ≠ .getRead m
      | _ => true
    | _ => true

/-- With nobody else at work the callers below `n` are all there is to look at. -/
theorem calm_of_among (hi : ∀ u, n ≤ u → s.pc u = .idle) (h : calmAmong n s a = true) :
    Calm s a := by
  obtain ⟨-, h⟩ := Bool.and_eq_true_iff.mp h
  cases a with
  | callGet t | callPut t c => trivial
  | run t =>
  refine ⟨fun m hm hc u => ?_, fun c m hm u => ?_⟩
  · by_cases hu : u < n
    · simp only [hm, hc, ne_eq, not_true_eq_false, decide_false, Bool.false_or, List.all_eq_true,
        List.mem_range, Bool.not_eq_true'] at h
      exact h u hu
    · rw [hi u (Nat.le_of_not_lt hu)]
      rfl
  · by_cases hu : u < n
    · simp only [hm, List.all_eq_true, List.mem_range, decide_eq_true_eq] at h
      exact h u hu
    · rw [hi u (Nat.le_of_not_lt hu)]
      simp

theorem calm_run_of_among
    (hr : acts.foldlM (fun s a => if calmAmong n s a then step s a else none) init = some s) :
    PoolRun Calm acts s := by
  have hidle : ∀ {s s' : State} {a : Act}, (∀ u, n ≤ u → s.pc u = .idle) → calmAmong n s a = true →
      step s a = some s' → ∀ u, n ≤ u → s'.pc u = .idle := by
    intro s s' a hi hc hs u hu
    have hlt : a.caller < n := of_decide_eq_true (Bool.and_eq_true_iff.mp hc).1
    rw [step_pc_of_ne hs (by omega)]
    exact hi u hu
  exact GoodRun.strengthen hidle calm_of_among (GoodRun.of_checked hr) fun _ _ => rfl

/-- Two callers get at the same time. While the first puts its context back the second, which lost
the race for it, reads the next slot; then it gets what the first has put. -/
def handOver : List Act :=
  [.callGet 0, .callGet 1, .run 0, .run 1, .run 0, .run 1, .run 0, .run 1,
    .callPut 0 63, .run 0, .run 1, .run 1, .run 0, .run 0, .run 0, .run 0,
    .callGet 1, .run 1, .run 1, .run 1]

theorem oneOwner_handOver : ∃ s, PoolRun Calm handOver s
    ∧ s.log = [.got 1 63, .got 1 62, .put 0 63, .got 0 63] ∧ OneOwner s.log := by
  obtain ⟨s, hr, hl⟩ : ∃ s, handOver.foldlM
      (fun s a => if calmAmong 2 s a then step s a else none) init = some s
      ∧ s.log = [.got 1 63, .got 1 62, .put 0 63, .got 0 63] := ⟨_, rfl, rfl⟩
  have hc : PoolRun Calm handOver s := calm_run_of_among hr
  exact ⟨s, hc, hl, oneOwner_of_calm handOver s hc⟩

/-- Caller 0 gets context 63 and puts it back; between its load and its store caller 1 pops
context 62, and the store puts that slot back below the count. -/
def undonePop : List Act :=
  [.callGet 0, .run 0, .run 0, .run 0, .callPut 0 63, .run 0, .run 0,
    .callGet 1, .run 1, .run 1, .run 1,
    .run 0, .run 0, .run 0,
    .callGet 2, .run 2, .run 2, .run 2, .callGet 2, .run 2, .run 2, .run 2]

/-- **A context can get two owners**: caller 2 is handed context 62 while caller 1 has it. -/
theorem two_owners_reachable :
    ¬ ∀ (acts : List Act) (s : State), PoolRun (fun _ _ => True) acts s → OneOwner s.log := by
  intro ha
  obtain ⟨s, hr, hl⟩ : ∃ s, undonePop.foldlM step init = some s
      ∧ s.log = [.got 2 62, .got 2 63, .got 1 62, .put 0 63, .got 0 63] := ⟨_, rfl, rfl⟩
  have hp := ha undonePop s (.of_foldlM hr) [] [.got 2 63] [.put 0 63, .got 0 63] 1 2 62
    (by rw [hl]; rfl)
  simp at hp

end Rah.Pool
