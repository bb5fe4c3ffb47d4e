import Rah.Limit.QuotaGroups

/-!
# What a quota group consults

The override of a check's config is looked up before the filter is asked. So a request of one
group is denied when its tenant is blocked for the config of another group; and with more than
255 group values the numbers wrap, a check with the number 0 has no filter at all, and two values
share a number. Otherwise (`Clear`) the emitted instructions do what the check of the mapped config
alone does (`QuotaExact`). Where every check has counters to ask, that condition is necessary too:
without it the instructions consult another config for some state of the counters.
-/

namespace Rah.Limit.Quota

open Rah.Lib Rah.Flow List Event

/-! ## The instructions -/

section Instructions

variable {κ : Type} {host : Host κ}

theorem settled_settled (h : v.denied = none) :
    settled (settled ctx v) v'
      = settled ctx ⟨v'.denied, v'.counters, v.consulted ++ v'.consulted⟩ := by
  simp [settled, h, append_assoc]

theorem runChecks_denied (h : (execute host c req k).denied = some status) :
    runChecks host req (c :: cs) k = execute host c req k := by
  rw [runChecks]
  simp only [h]
  rw [← h]

theorem runChecks_passed (h : (execute host c req k).denied = none) :
    runChecks host req (c :: cs) k =
      ⟨(runChecks host req cs (execute host c req k).counters).denied,
        (runChecks host req cs (execute host c req k).counters).counters,
        (execute host c req k).consulted ++
          (runChecks host req cs (execute host c req k).counters).consulted⟩ := by
  rw [runChecks]
  simp only [h]

/-- Where the checks of a verdict leave the executor. -/
def Leaves (next : Nat) (ctx : Ctx (Rest κ)) (handler : Int) (v : Verdict κ)
    (c : Config (Rest κ)) : Prop :=
  ∃ state : ExecutionState, state.errorHandlerPC = handler ∧
    c = if v.denied.isSome then redirect stopPlan (settled ctx v) state
      else { pc := next, ctx := settled ctx v, state := state }

/-- **The instructions of checks run the checks.** -/
theorem path_checks {before after : List (InstructionFunc (Rest κ))} (ctx : Ctx (Rest κ))
    (state : ExecutionState)
    (ht : table = before ++ (checkInstrs host before.length cs ++ after))
    (hl : table.length < 32768) :
    ∃ vs c, Path (turn table) ⟨before.length, ctx, state⟩ vs c ∧
      Leaves (before.length + cs.length) ctx state.errorHandlerPC
        (runChecks host (requestOf ctx) cs ctx.rest.counters) c := by
  induction cs generalizing before ctx state with
  | nil =>
    refine ⟨[], _, .nil _, state, rfl, ?_⟩
    simp [runChecks, settled]
  | cons c cs ih =>
  have hb : before.length + 1 < 32768 := by
    have hs := congrArg length ht
    simp only [checkInstrs, length_append, length_cons] at hs
    omega
  have hf : table[before.length]? = some (checkInstr host c (before.length + 1)) := by
    simp [ht, checkInstrs]
  let v := execute host c (requestOf ctx) ctx.rest.counters
  have htr : turn table ⟨before.length, ctx, state⟩ =
      some (redirect (if v.denied.isSome then int16 stopPlan else int16 ↑(before.length + 1))
        (settled ctx v) { state with pc := before.length }) := turn_eq hl hf rfl rfl
  cases hd : v.denied with
  | some status =>
    rw [runChecks_denied hd]
    refine ⟨_, _, .single htr, { state with pc := before.length }, rfl, ?_⟩
    rw [hd]
    rfl
  | none =>
  -- on to the next check, with what this one has left
  rw [hd, if_neg (by simp), int16_of_lt (by omega) (by omega)] at htr
  have htable' : table = (before ++ [checkInstr host c (before.length + 1)]) ++
      (checkInstrs host (before ++ [checkInstr host c (before.length + 1)]).length cs ++
        after) := by
    rw [ht]
    simp [checkInstrs]
  obtain ⟨vs, c', hp, state', hh, hc'⟩ :=
    ih (settled ctx v) { state with pc := before.length } htable'
  simp only [length_append, length_singleton] at hp hc'
  rw [runChecks_passed hd]
  refine ⟨_, c', .cons htr hp, state', hh, ?_⟩
  rw [hc', settled_settled hd, Nat.add_assoc, Nat.add_comm 1]
  rfl

/-- What the emitted instructions do with a request. -/
def Dynamic.verdict (bake : Bake) (entry : Dynamic) (host : Host κ) (ctx : Ctx (Rest κ)) :
    Verdict κ :=
  runChecks host (requestOf (assigned entry ctx)) (entry.checks bake) ctx.rest.counters

theorem assigned_counters : (assigned entry ctx).rest.counters = ctx.rest.counters := by
  unfold assigned
  dsimp only
  repeat' split
  all_goals rfl

theorem checkInstrs_length : ∀ pc, (checkInstrs host pc cs).length = cs.length := by
  induction cs with
  | nil => exact fun _ => rfl
  | cons c cs ih => exact fun pc => by rw [checkInstrs, length_cons, ih, length_cons]

/-- **The emitted instructions** assign the group and run the checks. -/
theorem path_emitDynamic {bake : Bake} {entry : Dynamic}
    {before after table : List (InstructionFunc (Rest κ))} (ctx : Ctx (Rest κ))
    (state : ExecutionState) (hm : entry.mappings ≠ [])
    (htb : table = before ++ (emitDynamic bake entry host before.length ++ after))
    (hln : table.length < 32768) :
    ∃ vs c, Path (turn table) ⟨before.length, ctx, state⟩ vs c ∧
      Leaves (before.length + (emitDynamic bake entry host before.length).length)
        (assigned entry ctx) state.errorHandlerPC (entry.verdict bake host ctx) c := by
  have he : emitDynamic bake entry host before.length =
      assignInstr entry :: checkInstrs host (before.length + 1) (entry.checks bake) := by
    rw [emitDynamic, if_neg hm]
  rw [he] at htb
  have hb : before.length + 1 < 32768 := by
    have hs := congrArg length htb
    simp only [length_append, length_cons] at hs
    omega
  have hf : table[before.length]? = some (assignInstr entry) := by simp [htb]
  have ht : turn table ⟨before.length, ctx, state⟩ =
      some (redirect (int16 ((before.length : Int) + 1)) (assigned entry ctx)
        { state with pc := before.length }) := turn_eq hln hf rfl rfl
  rw [int16_of_lt (by omega) (by omega)] at ht
  have htable' : table = (before ++ [assignInstr entry]) ++
      (checkInstrs host (before ++ [assignInstr entry]).length (entry.checks bake) ++ after) := by
    rw [htb]
    simp
  obtain ⟨vs, c, hp, hl⟩ := path_checks (assigned entry ctx)
    { state with pc := before.length } htable' hln
  simp only [length_append] at hp hl
  refine ⟨_, c, .cons ht hp, ?_⟩
  rw [assigned_counters] at hl
  rw [he, length_cons, checkInstrs_length, Nat.add_comm _ 1, ← Nat.add_assoc]
  exact hl

end Instructions

/-! ## One check -/

section Checks

variable {κ : Type} {host : Host κ} {req : Request} {c : Check}

def Event.isCounter : Event → Bool
  | .override _ => false
  | .counter _ => true

/-- The event is about this config. -/
def Event.Of (bake : Bake) (name : Text) : Event → Prop
  | .override config => config = bake.id name
  | .counter (.tenant config _ _) => config = bake.id name
  | .counter (.slot config _ _) => config = bake.id name
  | .counter (.remote name' _ _ _) => name' = name

/-- The request passes the filter of the check. -/
def Check.selects (c : Check) (req : Request) : Bool :=
  c.quotaGroupFilter == 0 || req.quotaGroupID == c.quotaGroupFilter

/-- The tenant's override of a config. -/
def overrideOf (host : Host κ) (req : Request) (id : BitVec 16) : Option Override :=
  host.v2Override req.tenantID id

def blockedFor (host : Host κ) (req : Request) (id : BitVec 16) : Bool :=
  (overrideOf host req id).any (·.blocked)

/-- The override settles the check, before its filter. -/
def shutFor (host : Host κ) (req : Request) (id : BitVec 16) : Bool :=
  (overrideOf host req id).any fun ov => ov.blocked || ov.disabled

/-- The look at the override, when there is one. -/
def noted (host : Host κ) (req : Request) (id : BitVec 16) : List Event :=
  if (overrideOf host req id).isSome then [.override id] else []

def scaleFor (host : Host κ) (req : Request) (id : BitVec 16) : Int :=
  let scalePct := ((host.modifiers[req.tenantID]?).map (·.scalePct)).getD 0
  match overrideOf host req id with
  | none => scalePct
  | some ov => if ov.scaleOverridePct ≠ 0 then ov.scaleOverridePct else scalePct

def limitsFor (host : Host κ) (req : Request) (id : BitVec 16) : List Nat :=
  ((overrideOf host req id).map (·.windowLimits)).getD []

theorem filtered_eq (scalePct : Int) (limits : List Nat) (k : κ) :
    filtered host c req scalePct limits k =
      if c.selects req then count host c req scalePct limits k else ⟨none, k, []⟩ := by
  unfold filtered Check.selects
  by_cases hz : c.quotaGroupFilter = 0 <;> by_cases hg : req.quotaGroupID = c.quotaGroupFilter <;>
    simp [hz, hg]

/-- What a check does for a tenant without a flag of its own. -/
theorem execute_eq (hb : tenantBlocked host req = false) (hd : tenantDisabled host req = false)
    (k : κ) : execute host c req k =
      let v : Verdict κ := if blockedFor host req c.configID then ⟨some 403, k, []⟩
        else if shutFor host req c.configID then ⟨none, k, []⟩
        else if c.selects req then
          count host c req (scaleFor host req c.configID) (limitsFor host req c.configID) k
        else ⟨none, k, []⟩
      ⟨v.denied, v.counters, noted host req c.configID ++ v.consulted⟩ := by
  unfold execute blockedFor shutFor noted scaleFor limitsFor overrideOf
  rw [hb, hd]
  cases host.v2Override req.tenantID c.configID with
  | none => simp [filtered_eq]
  | some ov =>
    obtain ⟨blocked, disabled, scale, limits⟩ := ov
    cases blocked <;> cases disabled <;> simp [filtered_eq]

section

variable (hb : tenantBlocked host req = false) (hd : tenantDisabled host req = false)
include hb hd

theorem execute_blocked (h : blockedFor host req c.configID = true) (k : κ) :
    execute host c req k = ⟨some 403, k, noted host req c.configID⟩ := by
  rw [execute_eq hb hd, h]
  exact congrArg (Verdict.mk _ _) (append_nil _)

/-- A check that an override settles, or whose filter the request does not pass. -/
theorem execute_past (hn : blockedFor host req c.configID = false)
    (h : shutFor host req c.configID = true ∨ c.selects req = false) (k : κ) :
    execute host c req k = ⟨none, k, noted host req c.configID⟩ := by
  rw [execute_eq hb hd, hn]
  rcases h with h | h <;> simp [h]

end

theorem countWindows_filter (c : Check) (gid : BitVec 8) (key : Key) (limitOf : WindowSpec → Nat)
    (ws : List WindowSpec) : ∀ k,
    countWindows host { c with quotaGroupFilter := gid } req key limitOf ws k =
      countWindows host c req key limitOf ws k := by
  induction ws with
  | nil => exact fun _ => rfl
  | cons w ws ih =>
  intro k
  rw [countWindows, countWindows]
  have hc : counterOf host { c with quotaGroupFilter := gid } req key w =
      counterOf host c req key w := rfl
  rw [hc]
  simp only [ih]

/-- A filter the request passes, or does not come to, is as good as none. -/
theorem execute_unfiltered (hb : tenantBlocked host req = false)
    (hd : tenantDisabled host req = false)
    (h : shutFor host req c.configID = true ∨ c.selects req = true) (k : κ) :
    execute host c req k = execute host { c with quotaGroupFilter := 0 } req k := by
  have hc : ∀ scalePct limits, count host { c with quotaGroupFilter := 0 } req scalePct limits k =
      count host c req scalePct limits k := by
    intro scalePct limits
    unfold count
    cases resolveKey req c.countBy with
    | none => rfl
    | some key => exact countWindows_filter c 0 _ _ _ k
  have hs : Check.selects { c with quotaGroupFilter := 0 } req = true := rfl
  rw [execute_eq hb hd, execute_eq hb hd, hs, hc]
  rcases h with h | h <;> simp [h]

/-- What a check may consult: the override of its config and its own counters. -/
def Check.Asks (c : Check) : Event → Prop
  | .override id => id = c.configID
  | .counter (.tenant id _ _) => id = c.configID ∧ c.remoteRL = false
  | .counter (.slot id _ _) => id = c.configID ∧ c.remoteRL = false
  | .counter (.remote name _ _ _) => name = c.configName ∧ c.remoteRL = true

theorem asks_counterOf {ref : CounterRef} (h : counterOf host c req key w = some ref) :
    c.Asks (.counter ref) := by
  unfold counterOf at h
  split at h
  · rename_i hr
    cases h
    exact ⟨rfl, hr⟩
  · rename_i hr
    split at h <;> split at h <;> cases h <;> exact ⟨rfl, Bool.eq_false_iff.mpr hr⟩

theorem asks_countWindows (ws : List WindowSpec) : ∀ k,
    ∀ e ∈ (countWindows host c req key limitOf ws k).consulted, c.Asks e ∧ e.isCounter = true := by
  induction ws with
  | nil => exact fun k e he => absurd he not_mem_nil
  | cons w ws ih =>
  intro k e he
  rw [countWindows] at he
  cases hr : counterOf host c req key w with
  | none =>
    rw [hr] at he
    exact ih k e he
  | some ref =>
  rw [hr] at he
  dsimp only at he
  split at he
  · rcases mem_cons.mp he with rfl | he
    · exact ⟨asks_counterOf hr, rfl⟩
    · exact ih _ e he
  · rw [mem_singleton.mp he]
    exact ⟨asks_counterOf hr, rfl⟩

/-- **A check consults its own config.** -/
theorem asks_execute (hb : tenantBlocked host req = false) (hd : tenantDisabled host req = false)
    (k : κ) : ∀ e ∈ (execute host c req k).consulted, c.Asks e ∧
      (e.isCounter = false → (overrideOf host req c.configID).isSome = true) := by
  intro e he
  rw [execute_eq hb hd] at he
  rcases mem_append.mp he with he | he
  · rw [noted] at he
    split at he
    · rename_i hov
      rw [mem_singleton.mp he]
      exact ⟨rfl, fun _ => hov⟩
    · cases he
  · have hc : c.Asks e ∧ e.isCounter = true := by
      split at he
      · cases he
      split at he
      · cases he
      split at he
      · unfold count at he
        split at he
        · cases he
        · exact asks_countWindows _ _ e he
      · cases he
    exact ⟨hc.1, fun hn => by rw [hc.2] at hn; cases hn⟩

end Checks

/-! ## Runs of checks -/

section Runs

variable {κ : Type} {host : Host κ} {req : Request} {id : BitVec 16} {cs : List Check}

/-- The check goes on with the counters as they are, and looks at no override but that of a
config. -/
def Passes (host : Host κ) (req : Request) (id : BitVec 16) (c : Check) : Prop :=
  ∃ evs, evs ⊆ noted host req id ∧ ∀ k, execute host c req k = ⟨none, k, evs⟩

theorem runChecks_passes (h : ∀ c ∈ cs, Passes host req id c) :
    ∃ evs, evs ⊆ noted host req id ∧ ∀ k, runChecks host req cs k = ⟨none, k, evs⟩ := by
  induction cs with
  | nil => exact ⟨[], nil_subset _, fun _ => rfl⟩
  | cons c cs ih =>
  obtain ⟨evs, hev, hc⟩ := h c (by simp)
  obtain ⟨evs', hevs', hcs⟩ := ih fun d hd => h d (by simp [hd])
  refine ⟨evs ++ evs', append_subset.mpr ⟨hev, hevs'⟩, fun k => ?_⟩
  rw [runChecks_passed (by rw [hc]), hc, hcs]

/-- The verdict is that of one check, up to looks at its override. -/
structure SameAs (v w : Verdict κ) : Prop where
  denied : v.denied = w.denied
  counters : v.counters = w.counters
  consulted : v.consulted.filter isCounter = w.consulted.filter isCounter
  events : v.consulted ⊆ w.consulted

theorem filter_noted {evs : List Event} (h : evs ⊆ noted host req id) :
    evs.filter isCounter = [] := by
  rw [filter_eq_nil_iff]
  intro e he
  have hm := h he
  rw [noted] at hm
  split at hm
  · rw [mem_singleton.mp hm]
    simp [isCounter]
  · cases hm

/-- **Checks around one of them.** -/
theorem runChecks_around {own : Check} (k : κ)
    (hown : noted host req id ⊆ (execute host own req k).consulted)
    (h : ∀ c ∈ cs, Passes host req id c)
    (h' : (execute host own req k).denied = none → ∀ c ∈ cs', Passes host req id c) :
    SameAs (runChecks host req (cs ++ own :: cs') k) (execute host own req k) := by
  induction cs with
  | nil =>
    rw [nil_append]
    cases hdn : (execute host own req k).denied with
    | some status =>
      rw [runChecks_denied hdn]
      exact ⟨rfl, rfl, rfl, Subset.refl _⟩
    | none =>
    obtain ⟨evs, hev, hr⟩ := runChecks_passes (h' hdn)
    rw [runChecks_passed hdn, hr]
    refine ⟨hdn.symm, rfl, ?_, append_subset.mpr ⟨Subset.refl _, fun e he => hown (hev he)⟩⟩
    simp [filter_append, filter_noted hev]
  | cons c cs ih =>
    have ih := ih fun d hd => h d (by simp [hd])
    obtain ⟨evs, hev, hc⟩ := h c (by simp)
    rw [cons_append, runChecks_passed (by rw [hc]), hc]
    refine ⟨ih.denied, ih.counters, ?_, append_subset.mpr ⟨fun e he => hown (hev he), ih.events⟩⟩
    rw [filter_append, filter_noted hev]
    exact ih.consulted

end Runs

/-! ## The emitted checks -/

section Emitted

variable {bake : Bake} {entry : Dynamic}

/-- The configs that are checked: those with a name and windows. -/
def Dynamic.checked (bake : Bake) (entry : Dynamic) : List Text :=
  (entry.mappings.map Prod.snd).filter fun name => name ≠ [] ∧ bake.windows name ≠ []

variable {gid : BitVec 8} {c own : Check} {name : Text}

theorem emitCheck_eq_some {countBy : CountBy} (h : emitCheck bake countBy gid name = some c) :
    (name ≠ [] ∧ bake.windows name ≠ []) ∧ c.configID = bake.id name ∧ c.configName = name ∧
      c.countBy = countBy ∧ c.windows = bake.windows name := by
  unfold emitCheck at h
  split at h
  · cases h
  · next hne =>
    cases h
    exact ⟨not_or.mp hne, rfl, rfl, rfl, rfl⟩

/-- Another filter makes another check of the same config. -/
theorem emitCheck_filter (h : emitCheck bake countBy gid name = some c) (gid' : BitVec 8) :
    emitCheck bake countBy gid' name = some { c with quotaGroupFilter := gid' } := by
  unfold emitCheck at h ⊢
  split at h
  · cases h
  · next hne =>
    rw [if_neg hne]
    cases h
    rfl

theorem mem_emitChecks (h : c ∈ emitChecks bake entry i vals) :
    ∃ gid val, emitCheck bake entry.countBy gid (entry.config val) = some c := by
  induction vals generalizing i with
  | nil => cases h
  | cons val vals ih =>
  rcases mem_append.mp h with h | h
  · exact ⟨_, val, Option.mem_toList.mp h⟩
  · exact ih h

theorem config_mem (h : entry.config val ≠ []) : (val, entry.config val) ∈ entry.mappings := by
  unfold Dynamic.config at h ⊢
  cases hl : entry.mappings.lookup val with
  | none =>
    rw [hl] at h
    exact absurd rfl h
  | some name =>
    obtain ⟨l1, l2, hs, -⟩ := lookup_eq_some_iff.mp hl
    rw [hs]
    simp

/-- What is known of an emitted check. -/
structure Emitted (bake : Bake) (entry : Dynamic) (c : Check) : Prop where
  checked : c.configName ∈ entry.checked bake
  id : c.configID = bake.id c.configName
  countBy : c.countBy = entry.countBy
  windows : c.windows ≠ []
  unfiltered : emitCheck bake entry.countBy 0 c.configName = some { c with quotaGroupFilter := 0 }

theorem emitted (h : c ∈ entry.checks bake) : Emitted bake entry c := by
  obtain ⟨gid, val, he⟩ := mem_emitChecks h
  obtain ⟨⟨hn, hw⟩, hid, hnm, hcb, hws⟩ := emitCheck_eq_some he
  have hck : entry.config val ∈ entry.checked bake := by
    rw [Dynamic.checked, mem_filter]
    exact ⟨mem_map.mpr ⟨_, config_mem hn, rfl⟩, by simp [hn, hw]⟩
  rw [← hnm] at hck hid he
  exact ⟨hck, hid, hcb, by rw [hws]; exact hw, emitCheck_filter he 0⟩

theorem exists_emitted (hk : val ∈ vals)
    (he : emitCheck bake entry.countBy 0 (entry.config val) = some own) : ∀ i,
    ∃ c ∈ emitChecks bake entry i vals, c.configName = entry.config val := by
  induction vals with
  | nil => cases hk
  | cons val' vals ih =>
  intro i
  rcases mem_cons.mp hk with rfl | hk
  · have hc := emitCheck_filter he (groupId i)
    refine ⟨_, mem_append_left _ ?_, (emitCheck_eq_some hc).2.2.1⟩
    rw [hc]
    exact mem_singleton_self _
  · obtain ⟨c, hc, hn⟩ := ih hk (i + 1)
    exact ⟨c, mem_append_right _ hc, hn⟩

/-- A config with windows that a value is mapped to has a check. -/
theorem exists_check (he : emitCheck bake entry.countBy 0 (entry.config val) = some own) :
    ∃ c ∈ entry.checks bake, c.configName = entry.config val := by
  have hv : val ∈ entry.sortedKeys :=
    (mergeSort_perm _ _).mem_iff.mpr (mem_map.mpr ⟨_, config_mem (emitCheck_eq_some he).1.1, rfl⟩)
  exact exists_emitted hv he 0

/-- The first check of a config. -/
theorem exists_first (hex : ∃ c ∈ entry.checks bake, c.configName = name) :
    ∃ pre c post, entry.checks bake = pre ++ c :: post ∧ c.configName = name ∧
      ∀ d ∈ pre, d.configName ≠ name := by
  obtain ⟨c, hc⟩ := Option.isSome_iff_exists.mp
    (find?_isSome.mpr (by simpa using hex) :
      ((entry.checks bake).find? (fun c => decide (c.configName = name))).isSome = true)
  obtain ⟨hnm, pre, post, hl, hpre⟩ := find?_eq_some_iff_append.mp hc
  exact ⟨pre, c, post, hl, of_decide_eq_true hnm, fun d hd => by simpa using hpre d hd⟩

end Emitted

/-! ## Quota groups -/

section Groups

variable {κ : Type} {host : Host κ} {bake : Bake} {entry : Dynamic} {ctx : Ctx (Rest κ)}

/-- The config mapped to the request's group value; empty if there is none. -/
def Dynamic.mapped (entry : Dynamic) (ctx : Ctx (Rest κ)) : Text :=
  entry.config (entry.value ctx.byteSlots)

/-- The request as the checks see it, with its group number. -/
def Dynamic.request (entry : Dynamic) (ctx : Ctx (Rest κ)) : Request :=
  requestOf (assigned entry ctx)

/-- **The mapped config is what is checked.** Everything consulted is of the mapped config and of
no other one; and the request is denied or not, and the counters change, as by its check alone. -/
structure QuotaExact (host : Host κ) (bake : Bake) (entry : Dynamic) (ctx : Ctx (Rest κ))
    (v : Verdict κ) : Prop where
  consulted : ∀ e ∈ v.consulted, e.Of bake (entry.mapped ctx) ∧
    ∀ name ∈ entry.checked bake, name ≠ entry.mapped ctx → ¬ e.Of bake name
  alone : ∀ c, emitCheck bake entry.countBy 0 (entry.mapped ctx) = some c →
    SameAs v (execute host c (entry.request ctx) ctx.rest.counters)
  unmapped : emitCheck bake entry.countBy 0 (entry.mapped ctx) = none →
    v.counters = ctx.rest.counters ∧ v.consulted = []

/-- The checks that can be reached: when the tenant is blocked for the config, those before its
first check. -/
def Dynamic.reached (bake : Bake) (entry : Dynamic) (host : Host κ) (req : Request)
    (name : Text) : List Check :=
  if blockedFor host req (bake.id name) then
    (entry.checks bake).takeWhile (fun c => c.configName ≠ name)
  else entry.checks bake

/-- The check is of the config, and the request passes its filter. -/
def Check.counts (c : Check) (req : Request) (name : Text) : Bool :=
  decide (c.configName = name) && c.selects req

/-- The checks of other configs know nothing of the request, and one check of its config counts. -/
structure ClearFor (host : Host κ) (bake : Bake) (entry : Dynamic) (req : Request)
    (name : Text) : Prop where
  /-- The tenant has no override for another config, and the request another group number. -/
  others : ∀ c ∈ entry.reached bake host req name, c.configName ≠ name →
    overrideOf host req c.configID = none ∧ c.selects req = false
  /-- Unless an override settles it, the config has one check with the request's number. -/
  once : ∀ own, emitCheck bake entry.countBy 0 name = some own →
    shutFor host req (bake.id name) = false →
    ((entry.checks bake).filter fun c => c.counts req name).length = 1
  /-- Where the id of the config is used, no other config has it. -/
  ids : ∀ own, emitCheck bake entry.countBy 0 name = some own →
    (own.remoteRL = false ∨ (overrideOf host req (bake.id name)).isSome = true) →
    ∀ other ∈ entry.checked bake, other ≠ name → bake.id other ≠ bake.id name

/-- The tenant is blocked or exempt as a whole, or the other configs stay out of it. -/
def Clear (host : Host κ) (bake : Bake) (entry : Dynamic) (ctx : Ctx (Rest κ)) : Prop :=
  tenantBlocked host (entry.request ctx) = true ∨ tenantDisabled host (entry.request ctx) = true ∨
    ClearFor host bake entry (entry.request ctx) (entry.mapped ctx)

theorem blockedFor_of_shutFor {req : Request} {id : BitVec 16}
    (h : shutFor host req id = false) : blockedFor host req id = false := by
  unfold shutFor at h
  unfold blockedFor
  cases hov : overrideOf host req id with
  | none => rfl
  | some ov =>
    rw [hov] at h
    exact (Bool.or_eq_false_iff.mp h).1

/-- Checks before the first one of the config are reached. -/
theorem mem_reached {req : Request} (hl : entry.checks bake = pre ++ post)
    (hpre : ∀ c ∈ pre, c.configName ≠ name) :
    ∀ c ∈ pre, c ∈ entry.reached bake host req name := by
  intro c hc
  rw [Dynamic.reached, hl]
  split
  · rw [takeWhile_append_of_pos fun d hd => decide_eq_true (hpre d hd)]
    exact mem_append_left _ hc
  · exact mem_append_left _ hc

/-! ### Nothing of another config -/

section Clear

variable {req : Request} {name : Text} {c own : Check}

/-- A flag of the tenant comes before everything else. -/
theorem execute_flagged (h : tenantBlocked host req = true ∨ tenantDisabled host req = true)
    (c : Check) (k : κ) : execute host c req k =
      ⟨if tenantBlocked host req then some 403 else none, k, []⟩ := by
  unfold execute
  cases hb : tenantBlocked host req with
  | true => rfl
  | false =>
    rw [h.resolve_left (by rw [hb]; exact Bool.false_ne_true)]
    rfl

theorem runChecks_flagged (h : tenantBlocked host req = true ∨ tenantDisabled host req = true)
    (k : κ) : ∀ cs, (runChecks host req cs k).counters = k
      ∧ (runChecks host req cs k).consulted = []
      ∧ (cs ≠ [] → (runChecks host req cs k).denied
        = if tenantBlocked host req then some 403 else none)
  | [] => ⟨rfl, rfl, fun hn => absurd rfl hn⟩
  | c :: cs => by
    have hx := execute_flagged h c k
    obtain ⟨hk, hc, hd⟩ := runChecks_flagged h k cs
    cases hb : tenantBlocked host req with
    | true =>
      rw [hb] at hx
      rw [runChecks_denied (congrArg Verdict.denied hx), hx]
      exact ⟨rfl, rfl, fun _ => rfl⟩
    | false =>
      rw [hb] at hx hd
      rw [runChecks_passed (congrArg Verdict.denied hx), hx]
      refine ⟨hk, hc, fun _ => ?_⟩
      cases cs with
      | nil => rfl
      | cons c cs => exact hd (by simp)

theorem noted_of_none {id : BitVec 16} (h : overrideOf host req id = none) :
    noted host req id = [] := by
  rw [noted, h]
  rfl

section

variable (hb : tenantBlocked host req = false) (hd : tenantDisabled host req = false)
include hb hd

/-- A check of another config that has no override and does not count. -/
theorem execute_foreign (h : overrideOf host req c.configID = none ∧ c.selects req = false)
    (k : κ) : execute host c req k = ⟨none, k, []⟩ := by
  have hn : blockedFor host req c.configID = false := by rw [blockedFor, h.1]; rfl
  rw [execute_past hb hd hn (.inr h.2), noted_of_none h.1]

theorem noted_subset (k : κ) :
    noted host req c.configID ⊆ (execute host c req k).consulted := by
  rw [execute_eq hb hd]
  exact fun e he => mem_append_left _ he

/-- **The config's check decides**, when one check of it is not like the others. -/
theorem sameAs_around (hl : entry.checks bake = pre ++ c :: post) (hnm : c.configName = name)
    (how : emitCheck bake entry.countBy 0 name = some own)
    (hc : shutFor host req (bake.id name) = true ∨ c.selects req = true)
    (hpre : ∀ d ∈ pre, Passes host req (bake.id name) d)
    (hpost : blockedFor host req (bake.id name) = false →
      ∀ d ∈ post, Passes host req (bake.id name) d) (k : κ) :
    SameAs (runChecks host req (entry.checks bake) k) (execute host own req k) := by
  subst hnm
  have hm : c ∈ entry.checks bake := by
    rw [hl]
    exact mem_append_cons_self
  have hid := (emitted hm).id
  have heq : execute host c req k = execute host own req k := by
    rw [(emitted hm).unfiltered] at how
    rw [← Option.some.inj how]
    exact execute_unfiltered hb hd (by rw [hid]; exact hc) k
  rw [← heq, hl]
  refine runChecks_around k (hid ▸ noted_subset hb hd k) hpre fun hdn => hpost ?_
  rw [← hid]
  by_contra hbl
  rw [execute_blocked hb hd (eq_true_of_ne_false hbl)] at hdn
  cases hdn

variable (hcl : ClearFor host bake entry req name)
include hcl

/-- A check beside the one that counts. -/
theorem passes_beside (hm : c ∈ entry.checks bake)
    (hr : c.configName ≠ name → c ∈ entry.reached bake host req name)
    (hn : c.configName = name → blockedFor host req (bake.id name) = false ∧
      (shutFor host req (bake.id name) = true ∨ c.selects req = false)) :
    Passes host req (bake.id name) c := by
  by_cases hnm : c.configName = name
  · obtain ⟨hbl, hs⟩ := hn hnm
    have hid : c.configID = bake.id name := by rw [(emitted hm).id, hnm]
    rw [← hid] at hbl hs ⊢
    exact ⟨_, Subset.refl _, execute_past hb hd hbl hs⟩
  · exact ⟨[], nil_subset _, execute_foreign hb hd (hcl.others c (hr hnm) hnm)⟩

theorem verdict_silent (how : emitCheck bake entry.countBy 0 name = none) (k : κ) :
    runChecks host req (entry.checks bake) k = ⟨none, k, []⟩ := by
  have hne : ∀ c ∈ entry.checks bake, c.configName ≠ name := by
    rintro c hc rfl
    rw [(emitted hc).unfiltered] at how
    cases how
  have hx : ∀ c ∈ entry.checks bake, ∀ k, execute host c req k = ⟨none, k, []⟩ := fun c hc =>
    execute_foreign hb hd (hcl.others c (mem_reached (append_nil _).symm hne c hc) (hne c hc))
  revert hx
  generalize entry.checks bake = cs
  intro hx
  induction cs with
  | nil => rfl
  | cons c cs ih =>
    have hc := hx c mem_cons_self k
    rw [runChecks_passed (by rw [hc]), hc, ih fun d hd => hx d (mem_cons_of_mem _ hd)]
    rfl

theorem verdict_alone (how : emitCheck bake entry.countBy 0 name = some own)
    (hex : ∃ c ∈ entry.checks bake, c.configName = name) (k : κ) :
    SameAs (runChecks host req (entry.checks bake) k) (execute host own req k) := by
  have hall : blockedFor host req (bake.id name) = false →
      entry.reached bake host req name = entry.checks bake := fun h => by
    rw [Dynamic.reached, h]
    rfl
  cases hs : shutFor host req (bake.id name) with
  | true =>
    -- the first check of the config decides
    obtain ⟨pre, c, post, hl, hnm, hne⟩ := exists_first hex
    have hmem : ∀ d, d ∈ pre ∨ d ∈ post → d ∈ entry.checks bake := fun d hd => by
      rw [hl]
      exact hd.elim (mem_append_left _) fun h => mem_append_right _ (mem_cons_of_mem _ h)
    refine sameAs_around hb hd hl hnm how (.inl hs) (fun d hd' => ?_)
      (fun hbl d hd' => ?_) k
    · exact passes_beside hb hd hcl (hmem d (.inl hd')) (fun _ => mem_reached hl hne d hd')
        fun hn => absurd hn (hne d hd')
    · refine passes_beside hb hd hcl (hmem d (.inr hd')) (fun _ => ?_) fun _ => ⟨hbl, .inl hs⟩
      rw [hall hbl]
      exact hmem d (.inr hd')
  | false =>
    -- the one check with the request's number decides
    have hbl := blockedFor_of_shutFor hs
    obtain ⟨c, hc⟩ := length_eq_one_iff.mp (hcl.once own how hs)
    obtain ⟨pre, post, hl, hpre, hct, hpost⟩ := filter_eq_cons_iff.mp hc
    have hct := Bool.and_eq_true_iff.mp hct
    have hps : ∀ d, d ∈ entry.checks bake → d.counts req name ≠ true →
        Passes host req (bake.id name) d := by
      intro d hm hn
      refine passes_beside hb hd hcl hm (fun _ => by rw [hall hbl]; exact hm) fun hnm => ?_
      refine ⟨hbl, .inr (eq_false_of_ne_true fun hs => hn ?_)⟩
      exact Bool.and_eq_true_iff.mpr ⟨decide_eq_true hnm, hs⟩
    refine sameAs_around hb hd hl (of_decide_eq_true hct.1) how (.inr hct.2) (fun d hd' => ?_)
      (fun _ d hd' => ?_) k
    · exact hps d (by rw [hl]; exact mem_append_left _ hd') (hpre d hd')
    · refine hps d (by rw [hl]; exact mem_append_right _ (mem_cons_of_mem _ hd')) ?_
      exact filter_eq_nil_iff.mp hpost d hd'

end

end Clear

/-- **Clear of other configs, the mapped one is what is checked.** -/
theorem Clear.exact (h : Clear host bake entry ctx) :
    QuotaExact host bake entry ctx (entry.verdict bake host ctx) := by
  have hv : entry.verdict bake host ctx =
      runChecks host (entry.request ctx) (entry.checks bake) ctx.rest.counters := rfl
  rw [hv]
  by_cases hf : tenantBlocked host (entry.request ctx) = true ∨
      tenantDisabled host (entry.request ctx) = true
  · -- nothing is consulted
    obtain ⟨hk, hc, hd⟩ := runChecks_flagged hf ctx.rest.counters (entry.checks bake)
    refine ⟨fun e he => ?_, fun own how => ?_, fun _ => ⟨hk, hc⟩⟩
    · rw [hc] at he
      cases he
    · obtain ⟨c, hm, -⟩ := exists_check how
      rw [execute_flagged hf]
      refine ⟨hd (ne_nil_of_mem hm), hk, by rw [hc], ?_⟩
      rw [hc]
      exact nil_subset _
  obtain ⟨hb, hd⟩ := not_or.mp hf
  rw [Bool.not_eq_true] at hb hd
  have hcl := (h.resolve_left (by rw [hb]; exact Bool.false_ne_true)).resolve_left
    (by rw [hd]; exact Bool.false_ne_true)
  cases how : emitCheck bake entry.countBy 0 (entry.mapped ctx) with
  | none =>
    have hs := verdict_silent hb hd hcl how ctx.rest.counters
    rw [hs]
    exact ⟨fun e he => absurd he not_mem_nil, fun c hc => absurd (how.symm.trans hc) (by simp),
      fun _ => ⟨rfl, rfl⟩⟩
  | some own =>
  have hal := verdict_alone hb hd hcl how (exists_check how) ctx.rest.counters
  refine ⟨fun e he => ?_, fun c hc => ?_, fun hn => absurd (how.symm.trans hn) (by simp)⟩
  rotate_left
  · cases how.symm.trans hc
    exact hal
  obtain ⟨-, hid, hnm, -, -⟩ := emitCheck_eq_some how
  obtain ⟨hask, hov⟩ := asks_execute hb hd _ e (hal.events he)
  rw [hid] at hov
  have hids := hcl.ids own how
  cases e with
  | override id =>
    have heq : id = bake.id (entry.mapped ctx) := hask.trans hid
    exact ⟨heq, fun name hm hne hof => hids (.inr (hov rfl)) name hm hne (hof.symm.trans heq)⟩
  | counter ref =>
    cases ref with
    | tenant id _ _ | slot id _ _ =>
      have heq : id = bake.id (entry.mapped ctx) := hask.1.trans hid
      exact ⟨heq, fun name hm hne hof => hids (.inl hask.2) name hm hne (hof.symm.trans heq)⟩
    | remote name' _ _ _ =>
      have heq : name' = entry.mapped ctx := hask.1.trans hnm
      exact ⟨heq, fun name _ hne hof => hne (hof.symm.trans heq)⟩

/-! ### Otherwise another config is consulted -/

section Necessary

/-- The request has a key, and every check has a counter for it. -/
def Provisioned (host : Host κ) (bake : Bake) (entry : Dynamic) (req : Request) : Prop :=
  ∃ key, resolveKey req entry.countBy = some key ∧
    ∀ c ∈ entry.checks bake, ∀ w, (counterOf host c req key w).isSome = true

/-- The same node, with counters that admit every request. -/
def Host.admitting (host : Host κ) : Host κ := { host with increment := fun k _ _ _ => (true, k) }

/-- The counters a check asks when all admit. -/
def asked (host : Host κ) (req : Request) (key : Key) (c : Check) : List Event :=
  c.windows.filterMap fun w => (counterOf host c req key w).map Event.counter

/-- All that it consults then. -/
def heard (host : Host κ) (req : Request) (key : Key) (c : Check) : List Event :=
  noted host req c.configID ++
    if shutFor host req c.configID = false ∧ c.selects req = true then asked host req key c else []

variable {req : Request} {name : Text} {c own : Check} {key : Key} {cs : List Check}

theorem countWindows_admitting (limitOf : WindowSpec → Nat) (k : κ) : ∀ ws,
    countWindows host.admitting c req key limitOf ws k =
      ⟨none, k, ws.filterMap fun w => (counterOf host c req key w).map Event.counter⟩
  | [] => rfl
  | w :: ws => by
    have ih := countWindows_admitting limitOf k ws
    have hc : counterOf host.admitting c req key w = counterOf host c req key w := rfl
    rw [countWindows, hc, filterMap_cons]
    cases counterOf host c req key w with
    | none => exact ih
    | some ref =>
      have hi : host.admitting.increment = fun k _ _ _ => (true, k) := rfl
      simp only [hi, Option.map_some, if_true, ih]

section

variable (hb : tenantBlocked host req = false) (hd : tenantDisabled host req = false)
include hb hd

theorem execute_admitting (hk : resolveKey req c.countBy = some key) (k : κ) :
    execute host.admitting c req k =
      ⟨if blockedFor host req c.configID then some 403 else none, k, heard host req key c⟩ := by
  have hn : ∀ scalePct limits, count host.admitting c req scalePct limits k =
      ⟨none, k, asked host req key c⟩ := by
    intro scalePct limits
    rw [count, hk]
    exact countWindows_admitting _ k _
  have hbl : blockedFor host.admitting = blockedFor host := rfl
  have hsh : shutFor host.admitting = shutFor host := rfl
  have hno : noted host.admitting = noted host := rfl
  rw [@execute_eq κ host.admitting req c hb hd k, heard, hbl, hsh, hno, hn]
  cases hs : shutFor host req c.configID with
  | true => cases blockedFor host req c.configID <;> rfl
  | false =>
    have hb : blockedFor host req c.configID = false := blockedFor_of_shutFor hs
    rw [hb]
    cases c.selects req <;> simp

theorem mem_runChecks_admitting (hk : ∀ d ∈ cs ++ c :: cs', resolveKey req d.countBy = some key)
    (hn : ∀ d ∈ cs, blockedFor host req d.configID = false)
    (he : e ∈ heard host req key c) (k : κ) :
    e ∈ (runChecks host.admitting req (cs ++ c :: cs') k).consulted := by
  induction cs with
  | nil =>
    have hx := execute_admitting hb hd (hk c mem_cons_self) k
    rw [nil_append]
    cases hdn : (execute host.admitting c req k).denied with
    | some status =>
      rw [runChecks_denied hdn, hx]
      exact he
    | none =>
      rw [runChecks_passed hdn, hx]
      exact mem_append_left _ he
  | cons d cs ih =>
    have hx := execute_admitting hb hd (hk d mem_cons_self) k
    rw [hn d mem_cons_self] at hx
    rw [cons_append, runChecks_passed (congrArg Verdict.denied hx), hx]
    refine mem_append_right _ (ih (fun a ha => hk a ?_) fun a ha => hn a (mem_cons_of_mem _ ha))
    exact mem_cons_of_mem _ ha

theorem runChecks_admitting (hk : ∀ d ∈ cs, resolveKey req d.countBy = some key)
    (hn : ∀ d ∈ cs, blockedFor host req d.configID = false) (k : κ) :
    (runChecks host.admitting req cs k).consulted = cs.flatMap (heard host req key) := by
  induction cs with
  | nil => rfl
  | cons d cs ih =>
    have hx := execute_admitting hb hd (hk d mem_cons_self) k
    rw [hn d mem_cons_self] at hx
    rw [runChecks_passed (congrArg Verdict.denied hx), hx, flatMap_cons,
      ih (fun a ha => hk a (mem_cons_of_mem _ ha)) fun a ha => hn a (mem_cons_of_mem _ ha)]

end

theorem isCounter_of_mem_asked (he : e ∈ asked host req key c) : e.isCounter = true := by
  obtain ⟨w, -, hw⟩ := mem_filterMap.mp he
  obtain ⟨ref, -, rfl⟩ := Option.map_eq_some_iff.mp hw
  rfl

theorem asks_heard (he : e ∈ heard host req key c) : c.Asks e := by
  rcases mem_append.mp he with he | he
  · rw [noted] at he
    split at he
    · rw [mem_singleton.mp he]
      rfl
    · cases he
  · split at he
    · obtain ⟨w, -, hw⟩ := mem_filterMap.mp he
      obtain ⟨ref, hr, rfl⟩ := Option.map_eq_some_iff.mp hw
      exact asks_counterOf hr
    · cases he

theorem Emitted.of_asks (hc : Emitted bake entry c) (h : c.Asks e) : e.Of bake c.configName := by
  cases e with
  | override id => exact h.trans hc.id
  | counter ref =>
    cases ref with
    | tenant id _ _ | slot id _ _ => exact h.1.trans hc.id
    | remote _ _ _ _ => exact h.1

theorem asked_ne_nil (hc : Emitted bake entry c)
    (hp : ∀ w, (counterOf host c req key w).isSome = true) : asked host req key c ≠ [] := by
  obtain ⟨w, ws, hw⟩ := exists_cons_of_ne_nil hc.windows
  obtain ⟨ref, hr⟩ := Option.isSome_iff_exists.mp (hp w)
  rw [asked, hw, filterMap_cons, hr]
  exact cons_ne_nil _ _

/-- A check of which nothing is heard has no override, and the request does not pass its filter. -/
theorem silent_of_heard (ha : asked host req key c ≠ []) (h : heard host req key c = []) :
    overrideOf host req c.configID = none ∧ c.selects req = false := by
  obtain ⟨hn, hq⟩ := append_eq_nil_iff.mp h
  have hov : overrideOf host req c.configID = none := by
    rw [noted] at hn
    split at hn
    · cases hn
    · rename_i ho
      exact Option.not_isSome_iff_eq_none.mp ho
  refine ⟨hov, eq_false_of_ne_true fun hs => ha ?_⟩
  have hsh : shutFor host req c.configID = false := by rw [shutFor, hov]; rfl
  rw [if_pos ⟨hsh, hs⟩] at hq
  exact hq

theorem counters_heard (hs : shutFor host req c.configID = false) :
    (heard host req key c).filter isCounter
      = if c.selects req then asked host req key c else [] := by
  rw [heard, filter_append, filter_noted (Subset.refl _), nil_append]
  cases c.selects req with
  | true =>
    rw [if_pos ⟨hs, rfl⟩, if_pos rfl]
    exact filter_eq_self.mpr fun e he => isCounter_of_mem_asked he
  | false => simp

/-- With the checks of other configs silent, each check of the config that counts asks once. -/
theorem length_counters {as : List Event}
    (hown : ∀ c ∈ cs, c.configName = name →
      shutFor host req c.configID = false ∧ asked host req key c = as)
    (hfor : ∀ c ∈ cs, c.configName ≠ name →
      overrideOf host req c.configID = none ∧ c.selects req = false) :
    ((cs.flatMap (heard host req key)).filter isCounter).length =
      (cs.filter fun c => c.counts req name).length * as.length := by
  induction cs with
  | nil => exact (Nat.zero_mul _).symm
  | cons c cs ih =>
  have ih := ih (fun d hd => hown d (mem_cons_of_mem _ hd))
    fun d hd => hfor d (mem_cons_of_mem _ hd)
  rw [flatMap_cons, filter_append, length_append, ih]
  by_cases hn : c.configName = name
  · obtain ⟨hs, ha⟩ := hown c mem_cons_self hn
    rw [counters_heard hs, filter_cons, Check.counts, decide_eq_true hn, Bool.true_and]
    cases c.selects req with
    | true => simp [ha, Nat.add_mul, Nat.add_comm]
    | false => simp
  · obtain ⟨ho, hs⟩ := hfor c mem_cons_self hn
    rw [counters_heard (by rw [shutFor, ho]; rfl), filter_cons, Check.counts, hs, Bool.and_false]
    simp

section Exact

variable (hb : tenantBlocked host (entry.request ctx) = false)
  (hd : tenantDisabled host (entry.request ctx) = false)
  (hk : ∀ c ∈ entry.checks bake, resolveKey (entry.request ctx) c.countBy = some key)
  (hp : ∀ c ∈ entry.checks bake, ∀ w, (counterOf host c (entry.request ctx) key w).isSome = true)
  (hx : QuotaExact host.admitting bake entry ctx (entry.verdict bake host.admitting ctx))

include hb hd hk hx

/-- What is heard from a check that is reached is of the mapped config, and of no other. -/
theorem heard_of_exact (hl : entry.checks bake = pre ++ c :: post)
    (hpre : ∀ d ∈ pre, blockedFor host (entry.request ctx) d.configID = false)
    (he : e ∈ heard host (entry.request ctx) key c) : e.Of bake (entry.mapped ctx) ∧
      ∀ name ∈ entry.checked bake, name ≠ entry.mapped ctx → ¬ e.Of bake name := by
  refine hx.consulted e ?_
  change e ∈ (runChecks _ (entry.request ctx) (entry.checks bake) _).consulted
  rw [hl] at hk ⊢
  exact mem_runChecks_admitting hb hd hk hpre he _

/-- A check of another config that is reached is not heard. -/
theorem heard_foreign (hl : entry.checks bake = pre ++ c :: post)
    (hpre : ∀ d ∈ pre, blockedFor host (entry.request ctx) d.configID = false)
    (hne : c.configName ≠ entry.mapped ctx) : heard host (entry.request ctx) key c = [] := by
  have hm : c ∈ entry.checks bake := by
    rw [hl]
    exact mem_append_cons_self
  refine eq_nil_iff_forall_not_mem.mpr fun e he => ?_
  exact (heard_of_exact hb hd hk hx hl hpre he).2 _ (emitted hm).checked hne
    ((emitted hm).of_asks (asks_heard he))

include hp

theorem others_of_exact : ∀ cs pre post, entry.checks bake = pre ++ (cs ++ post) →
    (∀ d ∈ pre, blockedFor host (entry.request ctx) d.configID = false) →
    (∀ d ∈ cs, d.configName = entry.mapped ctx →
      blockedFor host (entry.request ctx) d.configID = false) →
    ∀ c ∈ cs, c.configName ≠ entry.mapped ctx →
      overrideOf host (entry.request ctx) c.configID = none
        ∧ c.selects (entry.request ctx) = false := by
  intro cs
  induction cs with
  | nil => exact fun _ _ _ _ _ c hc => absurd hc not_mem_nil
  | cons d cs ih =>
  intro pre post hl hpre hown c hc hne
  have hs : d.configName ≠ entry.mapped ctx →
      overrideOf host (entry.request ctx) d.configID = none ∧
        d.selects (entry.request ctx) = false := by
    intro hn
    have hm : d ∈ entry.checks bake := by
      rw [hl]
      exact mem_append_right _ mem_cons_self
    exact silent_of_heard (asked_ne_nil (emitted hm) (hp d hm))
      (heard_foreign hb hd hk hx hl hpre hn)
  rcases mem_cons.mp hc with rfl | hc
  · exact hs hne
  · refine ih (pre ++ [d]) post (by rw [hl]; simp) ?_
      (fun a ha => hown a (mem_cons_of_mem _ ha)) c hc hne
    intro a ha
    rcases mem_append.mp ha with ha | ha
    · exact hpre a ha
    · rw [mem_singleton.mp ha]
      by_cases hn : d.configName = entry.mapped ctx
      · exact hown d mem_cons_self hn
      · rw [blockedFor, (hs hn).1]
        rfl

theorem reached_of_exact :
    ∀ c ∈ entry.reached bake host (entry.request ctx) (entry.mapped ctx),
      c.configName ≠ entry.mapped ctx → overrideOf host (entry.request ctx) c.configID = none ∧
        c.selects (entry.request ctx) = false := by
  intro c hc
  rw [Dynamic.reached] at hc
  split at hc
  · refine others_of_exact hb hd hk hp hx _ [] _ takeWhile_append_dropWhile.symm nofun ?_ c hc
    exact fun d hm hn => absurd hn (of_decide_eq_true (all_eq_true.mp all_takeWhile d hm))
  · rename_i hbl
    refine others_of_exact hb hd hk hp hx _ [] [] (append_nil _).symm nofun ?_ c hc
    intro d hm hn
    rw [(emitted hm).id, hn]
    exact eq_false_of_ne_true hbl

/-- Of a config that no override settles, nothing blocks. -/
theorem unblocked_of_exact
    (hs : shutFor host (entry.request ctx) (bake.id (entry.mapped ctx)) = false) :
    ∀ c ∈ entry.checks bake, (c.configName = entry.mapped ctx →
        shutFor host (entry.request ctx) c.configID = false) ∧
      (c.configName ≠ entry.mapped ctx → overrideOf host (entry.request ctx) c.configID = none ∧
        c.selects (entry.request ctx) = false) ∧
      blockedFor host (entry.request ctx) c.configID = false := by
  intro c hc
  have hr : entry.reached bake host (entry.request ctx) (entry.mapped ctx) = entry.checks bake := by
    rw [Dynamic.reached, blockedFor_of_shutFor hs]
    rfl
  have hown : c.configName = entry.mapped ctx →
      shutFor host (entry.request ctx) c.configID = false := by
    intro hn
    rw [(emitted hc).id, hn]
    exact hs
  have hfor := reached_of_exact hb hd hk hp hx c (by rw [hr]; exact hc)
  refine ⟨hown, hfor, ?_⟩
  by_cases hn : c.configName = entry.mapped ctx
  · exact blockedFor_of_shutFor (hown hn)
  · rw [blockedFor, (hfor hn).1]
    rfl

theorem once_of_exact (how : emitCheck bake entry.countBy 0 (entry.mapped ctx) = some own)
    (hs : shutFor host (entry.request ctx) (bake.id (entry.mapped ctx)) = false) :
    ((entry.checks bake).filter
      fun c => c.counts (entry.request ctx) (entry.mapped ctx)).length = 1 := by
  have hall := unblocked_of_exact hb hd hk hp hx hs
  have hown : ∀ c ∈ entry.checks bake, c.configName = entry.mapped ctx →
      { c with quotaGroupFilter := 0 } = own := by
    intro c hc hn
    have hu := (emitted hc).unfiltered
    rw [show emitCheck bake entry.countBy 0 c.configName = some own from hn ▸ how] at hu
    exact (Option.some.inj hu).symm
  obtain ⟨c₀, hc₀, hn₀⟩ := exists_check how
  have hasked : ∀ c ∈ entry.checks bake, c.configName = entry.mapped ctx →
      asked host (entry.request ctx) key c = asked host (entry.request ctx) key own :=
    fun c hc hn => hown c hc hn ▸ rfl
  have hlen := length_counters (fun c hc hn => ⟨(hall c hc).1 hn, hasked c hc hn⟩)
    fun c hc => (hall c hc).2.1
  -- alone, the check asks each of its counters once
  have hal := congrArg length (hx.alone own how).consulted
  have hv : (entry.verdict bake host.admitting ctx).consulted =
      (entry.checks bake).flatMap (heard host (entry.request ctx) key) :=
    runChecks_admitting hb hd hk (fun c hc => (hall c hc).2.2) _
  have hko : resolveKey (entry.request ctx) own.countBy = some key := by
    rw [← hown c₀ hc₀ hn₀]
    exact hk c₀ hc₀
  have hso : shutFor host (entry.request ctx) own.configID = false := by
    rw [(emitCheck_eq_some how).2.1]
    exact hs
  have hse : own.selects (entry.request ctx) = true := by
    rw [← hown c₀ hc₀ hn₀]
    rfl
  rw [hv, hlen, execute_admitting hb hd hko, counters_heard hso, hse, if_pos rfl] at hal
  have hpos : 0 < (asked host (entry.request ctx) key own).length := by
    rw [← hasked c₀ hc₀ hn₀]
    exact length_pos_of_ne_nil (asked_ne_nil (emitted hc₀) (hp c₀ hc₀))
  exact Nat.eq_of_mul_eq_mul_right hpos (hal.trans (Nat.one_mul _).symm)

theorem ids_of_exact (how : emitCheck bake entry.countBy 0 (entry.mapped ctx) = some own)
    (huse : own.remoteRL = false ∨
      (overrideOf host (entry.request ctx) (bake.id (entry.mapped ctx))).isSome = true)
    (hm : other ∈ entry.checked bake) (hne : other ≠ entry.mapped ctx) :
    bake.id other ≠ bake.id (entry.mapped ctx) := by
  intro heq
  by_cases hov : (overrideOf host (entry.request ctx) (bake.id (entry.mapped ctx))).isSome = true
  · -- the first check of the config looks at its override
    have hex : ∃ c ∈ entry.checks bake, c.configName = entry.mapped ctx := exists_check how
    obtain ⟨pre, c, post, hl, hnm, hpre⟩ := exists_first hex
    have hc : c ∈ entry.checks bake := by
      rw [hl]
      exact mem_append_cons_self
    have hid : c.configID = bake.id (entry.mapped ctx) := by rw [(emitted hc).id, hnm]
    have he : Event.override c.configID ∈ heard host (entry.request ctx) key c := by
      refine mem_append_left _ ?_
      rw [noted, hid, if_pos hov]
      exact mem_singleton_self _
    refine (heard_of_exact hb hd hk hx hl (fun d hd' => ?_) he).2 other hm hne (hid.trans heq.symm)
    rw [blockedFor, (reached_of_exact hb hd hk hp hx d (mem_reached hl hpre d hd') (hpre d hd')).1]
    rfl
  · -- the check that counts asks a counter of the config's arena
    have hno := Option.not_isSome_iff_eq_none.mp hov
    have hs : shutFor host (entry.request ctx) (bake.id (entry.mapped ctx)) = false := by
      rw [shutFor, hno]
      rfl
    have hall := unblocked_of_exact hb hd hk hp hx hs
    obtain ⟨c, hcs⟩ := length_eq_one_iff.mp (once_of_exact hb hd hk hp hx how hs)
    have hcm : c ∈ (entry.checks bake).filter
        fun c => c.counts (entry.request ctx) (entry.mapped ctx) := by
      rw [hcs]
      exact mem_singleton_self _
    obtain ⟨hc, hct⟩ := mem_filter.mp hcm
    obtain ⟨hnm, hse⟩ := Bool.and_eq_true_iff.mp hct
    have hnm := of_decide_eq_true hnm
    obtain ⟨pre, post, hl⟩ := append_of_mem hc
    obtain ⟨e, es, hes⟩ := exists_cons_of_ne_nil (asked_ne_nil (emitted hc) (hp c hc))
    have he : e ∈ asked host (entry.request ctx) key c := by
      rw [hes]
      exact mem_cons_self
    have hh : e ∈ heard host (entry.request ctx) key c := by
      refine mem_append_right _ ?_
      rw [if_pos ⟨(hall c hc).1 hnm, hse⟩]
      exact he
    have hnot := (heard_of_exact hb hd hk hx hl
      (fun d hd' => (hall d (by rw [hl]; exact mem_append_left _ hd')).2.2) hh).2 other hm hne
    have hid : c.configID = bake.id other := by rw [(emitted hc).id, hnm, heq]
    have hrm : c.remoteRL = false := by
      have hu := (emitted hc).unfiltered
      rw [show emitCheck bake entry.countBy 0 c.configName = some own from hnm ▸ how] at hu
      have hr : own.remoteRL = c.remoteRL := by rw [Option.some.inj hu]
      exact hr ▸ huse.resolve_right hov
    have hask := asks_heard hh
    have hcn := isCounter_of_mem_asked he
    cases e with
    | override id => cases hcn
    | counter ref =>
      cases ref with
      | tenant id _ _ | slot id _ _ => exact hnot (hask.1.trans hid)
      | remote _ _ _ _ =>
        exact absurd (hrm.symm.trans hask.2) Bool.false_ne_true

theorem clearFor_of_exact : ClearFor host bake entry (entry.request ctx) (entry.mapped ctx) where
  others := reached_of_exact hb hd hk hp hx
  once := fun _ how hs => once_of_exact hb hd hk hp hx how hs
  ids := fun _ how huse _ hm hne => ids_of_exact hb hd hk hp hx how huse hm hne

end Exact

end Necessary

/-- **Quota groups check the mapped config** of a request that is clear of the others: the
instructions run, and what they have consulted and done is what the mapped config's check alone
does. Where every check has counters to ask, they do so for all counters only then. -/
theorem emitDynamic_exact {before after table : List (InstructionFunc (Rest κ))}
    (hmappings : entry.mappings ≠ [])
    (htable : table = before ++ (emitDynamic bake entry host before.length ++ after))
    (hlen : table.length < 32768) (state : ExecutionState) :
    (∃ vs c, Path (turn table) ⟨before.length, ctx, state⟩ vs c ∧
      Leaves (before.length + (emitDynamic bake entry host before.length).length)
        (assigned entry ctx) state.errorHandlerPC (entry.verdict bake host ctx) c) ∧
    (Clear host bake entry ctx → QuotaExact host bake entry ctx (entry.verdict bake host ctx)) ∧
    (Provisioned host bake entry (entry.request ctx) →
      ((∀ increment, QuotaExact { host with increment := increment } bake entry ctx
          (entry.verdict bake { host with increment := increment } ctx)) ↔
        Clear host bake entry ctx)) := by
  refine ⟨path_emitDynamic ctx state hmappings htable hlen, Clear.exact, ?_⟩
  rintro ⟨key, hkey, hp⟩
  constructor
  · intro hx
    cases hb : tenantBlocked host (entry.request ctx) with
    | true => exact .inl hb
    | false =>
    cases hd : tenantDisabled host (entry.request ctx) with
    | true => exact .inr (.inl hd)
    | false =>
    refine .inr (.inr (clearFor_of_exact hb hd (fun c hc => ?_) hp (hx _)))
    rw [(emitted hc).countBy]
    exact hkey
  · intro h increment
    refine Clear.exact ?_
    exact h.imp id (Or.imp id fun h => ⟨h.others, h.once, h.ids⟩)

end Groups

/-! ### Two groups -/

/-- Two configs of one window each, called `a` and `b`. -/
def twoConfigs : Bake where
  rateLimitConfigId := fun name =>
    if name = [97] then some 1 else if name = [98] then some 2 else none
  rateLimitConfigV2 := fun name =>
    if name = [97] ∨ name = [98] then some ⟨false, false, [(60, 10)]⟩ else none
  remoteRL := false
  instanceCountFn := false

/-- The values `x` and `y` of a slot are mapped to them. -/
def twoGroups : Dynamic where
  source := some 0
  mappings := [([120], [97]), ([121], [98])]
  countBy := .tenant
  nodup := by decide

/-- A node with all arenas, whose counters admit every request. -/
def openHost (v2Override : Nat → BitVec 16 → Option Override) : Host Unit where
  modifiers := []
  v2Override := v2Override
  tenantArena := fun _ => true
  slotArena := fun _ => true
  nodes := 1
  now := 0
  increment := fun k _ _ _ => (true, k)

/-- A request of the tenant 7 with the group value `y`. -/
def ofGroupY : Ctx (Rest Unit) where
  byteSlots := fun _ => [121]
  intSlots := fun _ => 0
  failed := false
  responseStatus := 0
  activeTx := false
  txDepth := 0
  calls := []
  rest := ⟨7, 0, [], (), []⟩

theorem twoGroups_sortedKeys : twoGroups.sortedKeys = [[120], [121]] :=
  mergeSort_of_pairwise (by decide)

theorem twoGroups_checks : twoGroups.checks twoConfigs =
    [⟨1, [97], .tenant, [⟨60, 10, 0⟩], false, false, 1⟩,
      ⟨2, [98], .tenant, [⟨60, 10, 0⟩], false, false, 2⟩] := by
  rw [Dynamic.checks, twoGroups_sortedKeys]
  rfl

theorem twoGroups_request : twoGroups.request ofGroupY = ⟨7, 2, [], fun _ => [121]⟩ := by
  rw [Dynamic.request, assigned, Dynamic.group, twoGroups_sortedKeys]
  rfl

theorem clear_twoGroups : Clear (openHost fun _ _ => none) twoConfigs twoGroups ofGroupY := by
  rw [Clear, twoGroups_request]
  refine .inr (.inr ⟨fun c hc hne => ?_, fun _ _ _ => ?_, fun _ _ _ => by decide⟩)
  · rw [Dynamic.reached, if_neg (by decide), twoGroups_checks, mem_cons, mem_singleton] at hc
    rcases hc with rfl | rfl
    · exact ⟨rfl, by decide⟩
    · exact absurd rfl hne
  · rw [twoGroups_checks]
    decide

theorem provisioned_twoGroups : Provisioned (openHost fun _ _ => none) twoConfigs twoGroups
    (twoGroups.request ofGroupY) := by
  refine ⟨.tenant, rfl, fun c hc w => ?_⟩
  rw [twoGroups_checks, mem_cons, mem_singleton] at hc
  rcases hc with rfl | rfl <;> rfl

theorem emitDynamic_twoGroups :
    (∃ vs c, Path (turn (emitDynamic twoConfigs twoGroups (openHost fun _ _ => none) 0))
        ⟨0, ofGroupY, ⟨0, 0⟩⟩ vs c ∧
      Leaves (0 + (emitDynamic twoConfigs twoGroups (openHost fun _ _ => none) 0).length)
        (assigned twoGroups ofGroupY) 0
        (twoGroups.verdict twoConfigs (openHost fun _ _ => none) ofGroupY) c) ∧
      QuotaExact (openHost fun _ _ => none) twoConfigs twoGroups ofGroupY
        (twoGroups.verdict twoConfigs (openHost fun _ _ => none) ofGroupY) ∧
      ∀ increment, QuotaExact { openHost fun _ _ => none with increment := increment } twoConfigs
        twoGroups ofGroupY (twoGroups.verdict twoConfigs
          { openHost fun _ _ => none with increment := increment } ofGroupY) := by
  have hlen : (emitDynamic twoConfigs twoGroups (openHost fun _ _ => none) 0).length < 32768 := by
    rw [emitDynamic, twoGroups_checks]
    decide
  obtain ⟨hpath, hexact, hiff⟩ := @emitDynamic_exact Unit (openHost fun _ _ => none) twoConfigs
    twoGroups ofGroupY [] [] _ (by decide) (by simp) hlen ⟨0, 0⟩
  exact ⟨hpath, hexact clear_twoGroups, (hiff provisioned_twoGroups).mpr clear_twoGroups⟩

/-- **Another group's config blocks the request**: the tenant is blocked for `a`, the request is
of the group of `b`, and it is denied. -/
theorem emitDynamic_other_blocked : twoGroups.mapped ofGroupY = [98] ∧
      (twoGroups.verdict twoConfigs (openHost fun _ id =>
        if id = 1 then some ⟨true, false, 0, []⟩ else none) ofGroupY).denied = some 403 ∧
      (twoGroups.verdict twoConfigs (openHost fun _ id =>
        if id = 1 then some ⟨true, false, 0, []⟩ else none) ofGroupY).consulted = [.override 1] ∧
      twoConfigs.id [97] = 1 ∧ twoConfigs.id [98] = 2 := by
  rw [Dynamic.verdict, Dynamic.checks, twoGroups_sortedKeys]
  exact ⟨by decide, by decide, by decide, by decide, by decide⟩

end Rah.Limit.Quota
