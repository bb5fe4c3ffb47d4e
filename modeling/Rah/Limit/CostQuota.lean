import Mathlib.Algebra.Order.Group.Int
import Mathlib.Algebra.Order.Monoid.Defs
import Rah.Lib.Run

/-!
# Cost quotas

A tenant has windows with a limit each, or a daily and a monthly limit when it has none.
A counter is kept as the costs recorded in it, with their times; the source keeps their sum.
`CanAfford` and `RecordCost` each run under the manager's lock, with the time read before
and the clock in it. Costs are of any ordered group, such as the rationals.

Between the two calls of a request others may be allowed to spend the same budget.
`GetQuotaStatus` resets nothing, knows no monthly limit, and compares the day even
where the windows count or there is no daily limit; nothing ever resets the month.
-/

namespace Rah.Limit.Cost

open Rah.Lib List

variable {C : Type}

structure WindowUsage (C : Type) where
  windowStart : Int
  windowDuration : Int
  windowLimit : C
  recorded : List (Int × C) := []

structure QuotaState (C : Type) where
  dailyCostLimit : C
  monthlyCostLimit : C
  lastReset : Int
  windows : List (WindowUsage C)
  day : List (Int × C) := []
  month : List (Int × C) := []

def WindowUsage.settle (u : WindowUsage C) (now clock : Int) : WindowUsage C :=
  if u.windowDuration < clock - u.windowStart then { u with windowStart := now, recorded := [] }
  else u

/-- A day in nanoseconds. -/
def dayNs : Int := 86400000000000

def QuotaState.settleDay (q : QuotaState C) (now clock : Int) : QuotaState C :=
  if dayNs < clock - q.lastReset then { q with lastReset := now, day := [] } else q

theorem settle_eq (u : WindowUsage C) (now clock : Int) : u.settle now clock = u
    ∨ u.settle now clock = { u with windowStart := now, recorded := [] } := by
  unfold WindowUsage.settle
  split
  · exact .inr rfl
  · exact .inl rfl

theorem settleDay_windows (q : QuotaState C) (now clock : Int) :
    (q.settleDay now clock).windows = q.windows := by
  unfold QuotaState.settleDay
  split <;> rfl

variable [AddCommGroup C] [LinearOrder C]

def used : List (Int × C) → C
  | [] => 0
  | e :: es => e.2 + used es

/-- A limit of the older kind is exceeded; zero is no limit. -/
def exceeds (limit used : C) : Bool := 0 < limit && limit < used

def canAfford (now clock : Int) (cost : C) (q : QuotaState C) : Bool × QuotaState C :=
  if q.windows ≠ [] then
    let q := { q with windows := q.windows.map (·.settle now clock) }
    (q.windows.all fun u => !decide (u.windowLimit < used u.recorded + cost), q)
  else
    let q := q.settleDay now clock
    (!exceeds q.dailyCostLimit (used q.day + cost)
      && !exceeds q.monthlyCostLimit (used q.month + cost),
      q)

def recordCost (now clock : Int) (cost : C) (q : QuotaState C) : QuotaState C :=
  let q := q.settleDay now clock
  { q with
    windows := q.windows.map fun u =>
      let u := u.settle now clock
      { u with recorded := (now, cost) :: u.recorded }
    day := (now, cost) :: q.day
    month := (now, cost) :: q.month }

/-- `QuotaExceeded` of `GetQuotaStatus`. -/
def quotaExceeded (q : QuotaState C) : Bool :=
  q.dailyCostLimit < used q.day || q.windows.any fun u => u.windowLimit < used u.recorded

/-! ## Requests at once -/

/-- The quota and the costs that were allowed and are not recorded yet. -/
structure Requests (C : Type) where
  quota : QuotaState C
  allowed : List C

inductive Act (C : Type) where
  | canAfford (cost : C) (now clock : Int)
  | recordCost (cost : C) (now clock : Int)

def Requests.step (s : Requests C) : Act C → Option (Requests C)
  | .canAfford cost now clock =>
    if 0 ≤ cost then
      let r := canAfford now clock cost s.quota
      some ⟨r.2, if r.1 then cost :: s.allowed else s.allowed⟩
    else none
  | .recordCost cost now clock =>
    if cost ∈ s.allowed then some ⟨recordCost now clock cost s.quota, s.allowed.erase cost⟩
    else none

/-- A request asks only when none is between its two calls. -/
def InTurn (s : Requests C) : Act C → Prop
  | .canAfford _ _ _ => s.allowed = []
  | .recordCost _ _ _ => True

instance (s : Requests C) : (a : Act C) → Decidable (InTurn s a)
  | .canAfford _ _ _ => inferInstanceAs (Decidable (_ = _))
  | .recordCost _ _ _ => isTrue trivial

/-- Every window holds what was recorded and has room for what is allowed. -/
structure Room (s : Requests C) : Prop where
  one : s.allowed.length ≤ 1
  positive : ∀ u ∈ s.quota.windows, 0 ≤ used u.recorded ∧ used u.recorded ≤ u.windowLimit
  room : ∀ cost ∈ s.allowed, 0 ≤ cost ∧ ∀ u ∈ s.quota.windows,
    used u.recorded + cost ≤ u.windowLimit

/-- `CanAfford` settles the windows, and allows what they have room for. -/
theorem canAfford_windows {cost : C} {q : QuotaState C} {u : WindowUsage C}
    (hu : u ∈ (canAfford now clock cost q).2.windows) :
    (∃ v ∈ q.windows, u = v.settle now clock) ∧ ((canAfford now clock cost q).1 = true →
      used u.recorded + cost ≤ u.windowLimit) := by
  unfold canAfford at hu ⊢
  split at hu <;> rename_i hne
  · rw [if_pos hne]
    obtain ⟨v, hv, hs⟩ := mem_map.mp hu
    exact ⟨⟨v, hv, hs.symm⟩, fun ha => by simpa using all_eq_true.mp ha u hu⟩
  · rw [settleDay_windows, not_not.mp hne] at hu
    cases hu

section Steps

variable [IsOrderedAddMonoid C] {s s' : Requests C}

theorem Room.step (h : Room s) (ht : InTurn s a) (hs : s.step a = some s') : Room s' := by
  cases a with
  | canAfford cost now clock =>
    dsimp only [Requests.step] at hs
    split at hs <;> cases hs
    rename_i hcs
    have ht : s.allowed = [] := ht
    rw [ht]
    refine ⟨?_, fun u hu => ?_, fun c hc => ?_⟩
    · split <;> simp
    · obtain ⟨⟨v, hv, rfl⟩, _⟩ := canAfford_windows hu
      obtain ⟨hp, hle⟩ := h.positive v hv
      rcases settle_eq v now clock with he | he <;> rw [he]
      · exact ⟨hp, hle⟩
      · exact ⟨le_refl _, le_trans hp hle⟩
    · split at hc
      · rename_i hok
        cases mem_singleton.mp hc
        exact ⟨hcs, fun u hu => (canAfford_windows hu).2 hok⟩
      · cases hc
  | recordCost cost now clock =>
    dsimp only [Requests.step] at hs
    split at hs <;> cases hs
    rename_i hm
    -- it was the only request
    have hn : s.allowed.erase cost = [] := by
      rw [← length_eq_zero_iff, length_erase_of_mem hm]
      have := h.one
      omega
    obtain ⟨hcs, hr⟩ := h.room cost hm
    rw [hn]
    refine ⟨by simp, fun u hu => ?_, nofun⟩
    obtain ⟨v, hv, rfl⟩ := mem_map.mp hu
    rw [settleDay_windows] at hv
    obtain ⟨hp, _⟩ := h.positive v hv
    have hle := hr v hv
    rw [used, add_comm]
    rcases settle_eq v now clock with he | he <;> rw [he]
    · exact ⟨add_nonneg hp hcs, hle⟩
    · rw [used, zero_add]
      exact ⟨hcs, le_trans (le_add_of_nonneg_left hp) hle⟩

/-- **What is recorded in a window since its last reset is within the limit** if limits are not
negative and requests ask in turn. -/
theorem recorded_le_limit (q : QuotaState C) (acts : List (Act C)) (s : Requests C)
    (hst : ∀ u ∈ q.windows, u.recorded = [] ∧ 0 ≤ u.windowLimit)
    (hr : GoodRun (fun s a s' => Requests.step s a = some s') InTurn ⟨q, []⟩ acts s) :
    ∀ u ∈ s.quota.windows, used u.recorded ≤ u.windowLimit := by
  have hm : Room s := by
    refine hr.invariant (fun h ht hs => h.step ht hs) ⟨by simp, fun u hu => ?_, nofun⟩
    obtain ⟨he, hl⟩ := hst u hu
    rw [he]
    exact ⟨le_refl _, hl⟩
  exact fun u hu => (hm.positive u hu).2

end Steps

/-- A window of an hour, in nanoseconds, with a limit of ten. -/
def hourly : QuotaState Int := ⟨0, 0, 0, [⟨0, 3600000000000, 10, []⟩], [], []⟩

theorem recorded_in_turn : ∃ s, GoodRun (fun s a s' => Requests.step s a = some s') InTurn
      ⟨hourly, []⟩ [.canAfford 6 1 1, .recordCost 6 2 2, .canAfford 6 3 3] s
    ∧ ∀ u ∈ s.quota.windows, used u.recorded ≤ u.windowLimit := by
  obtain ⟨s, hs⟩ : ∃ s, [Act.canAfford 6 1 1, .recordCost 6 2 2, .canAfford 6 3 3].foldlM
    (fun s a => if InTurn s a then Requests.step s a else none) ⟨hourly, []⟩ = some s := ⟨_, rfl⟩
  have hrun := GoodRun.of_checked hs
  exact ⟨s, hrun, recorded_le_limit hourly _ s (by decide) hrun⟩

/-- **More than the limit is recorded**: two requests of six ask before either records. -/
theorem recorded_exceeds : ∃ s, [Act.canAfford 6 1 1, .canAfford 6 1 1, .recordCost 6 2 2,
      .recordCost 6 2 2].foldlM Requests.step ⟨hourly, []⟩ = some s
    ∧ s.quota.windows.map (fun u => used u.recorded) = [12] :=
  ⟨_, rfl, rfl⟩

/-! ## The status -/

/-- A history: at each time a cost is asked for or recorded. -/
def replay (q : QuotaState C) : List (Int × Bool × C) → QuotaState C
  | [] => q
  | (now, false, cost) :: calls => replay (canAfford now now cost q).2 calls
  | (now, true, cost) :: calls => replay (recordCost now now cost q) calls

/-- What is in a counter was recorded since its start. -/
structure Since (q : QuotaState C) (now : Int) : Prop where
  day : q.lastReset ≤ now ∧ ∀ e ∈ q.day, q.lastReset ≤ e.1
  windows : ∀ u ∈ q.windows, u.windowStart ≤ now ∧ ∀ e ∈ u.recorded, u.windowStart ≤ e.1

section Since

omit [AddCommGroup C] [LinearOrder C]

variable {q : QuotaState C}

theorem Since.mono (h : Since q now) (hle : now ≤ t) : Since q t :=
  ⟨⟨Int.le_trans h.day.1 hle, h.day.2⟩,
    fun u hu => ⟨Int.le_trans (h.windows u hu).1 hle, (h.windows u hu).2⟩⟩

theorem settle_since {u : WindowUsage C}
    (h : u.windowStart ≤ now ∧ ∀ e ∈ u.recorded, u.windowStart ≤ e.1) :
    (u.settle now now).windowStart ≤ now
      ∧ ∀ e ∈ (u.settle now now).recorded, (u.settle now now).windowStart ≤ e.1 := by
  rcases settle_eq u now now with he | he <;> rw [he]
  · exact h
  · exact ⟨Int.le_refl _, nofun⟩

theorem Since.settleDay (h : Since q now) : Since (q.settleDay now now) now := by
  unfold QuotaState.settleDay
  split
  · exact ⟨⟨Int.le_refl _, nofun⟩, h.windows⟩
  · exact h

theorem Since.recordCost (h : Since q now) (cost : C) : Since (recordCost now now cost q) now := by
  have hd := h.settleDay
  refine ⟨⟨hd.day.1, forall_mem_cons.mpr hd.day⟩, fun u hu => ?_⟩
  obtain ⟨v, hv, rfl⟩ := mem_map.mp hu
  have hw := settle_since (hd.windows v hv)
  exact ⟨hw.1, forall_mem_cons.mpr hw⟩

/-- `RegisterQuota`, for windows with a duration and a limit each. -/
def registerQuota (daily monthly : C) (windows : List (Int × C)) (now : Int) : QuotaState C :=
  { dailyCostLimit := daily, monthlyCostLimit := monthly, lastReset := now,
    windows := windows.map (fun w =>
      { windowStart := now, windowDuration := w.1, windowLimit := w.2 }) }

theorem registerQuota_since (daily monthly : C) (windows : List (Int × C)) (now : Int) :
    Since (registerQuota daily monthly windows now) now := by
  refine ⟨⟨Int.le_refl _, nofun⟩, fun u hu => ?_⟩
  obtain ⟨w, _, rfl⟩ := mem_map.mp hu
  exact ⟨Int.le_refl _, nofun⟩

/-- The check is about to reset the counter. -/
def WindowUsage.Due (u : WindowUsage C) (now : Int) : Prop :=
  u.windowDuration < now - u.windowStart

def QuotaState.DayDue (q : QuotaState C) (now : Int) : Prop := dayNs < now - q.lastReset

instance (u : WindowUsage C) (now : Int) : Decidable (u.Due now) :=
  inferInstanceAs (Decidable (_ < _))

instance (q : QuotaState C) (now : Int) : Decidable (q.DayDue now) :=
  inferInstanceAs (Decidable (_ < _))

/-- No cost is older than the period. -/
def Within (period now : Int) (costs : List (Int × C)) : Prop := ∀ e ∈ costs, now - e.1 ≤ period

theorem within_of_not_due (period : Int) {costs : List (Int × C)} {start : Int}
    (h : ∀ e ∈ costs, start ≤ e.1) (hd : ¬ period < now - start) : Within period now costs := by
  intro e he
  have := h e he
  omega

/-- What is left in a window after a reset, if one is due, is within its duration. -/
theorem settle_within {u : WindowUsage C} (h : ∀ e ∈ u.recorded, u.windowStart ≤ e.1) :
    Within (u.settle now now).windowDuration now (u.settle now now).recorded := by
  unfold WindowUsage.settle
  split
  · exact nofun
  · rename_i hd
    exact within_of_not_due _ h hd

theorem settleDay_within (h : ∀ e ∈ q.day, q.lastReset ≤ e.1) :
    Within dayNs now (q.settleDay now now).day := by
  unfold QuotaState.settleDay
  split
  · exact nofun
  · rename_i hd
    exact within_of_not_due _ h hd

/-- The costs the status compares with a limit are within their periods. -/
def FreshStatus (q : QuotaState C) (now : Int) : Prop :=
  Within dayNs now q.day ∧ ∀ u ∈ q.windows, Within u.windowDuration now u.recorded

theorem freshStatus_iff (h : Since q t) : FreshStatus q now
    ↔ (q.DayDue now → Within dayNs now q.day)
      ∧ ∀ u ∈ q.windows, u.Due now → Within u.windowDuration now u.recorded := by
  refine ⟨fun hf => ⟨fun _ => hf.1, fun u hu _ => hf.2 u hu⟩, fun hf => ⟨?_, fun u hu => ?_⟩⟩
  · by_cases hd : q.DayDue now
    · exact hf.1 hd
    · exact within_of_not_due _ h.day.2 hd
  · by_cases hd : u.Due now
    · exact hf.2 u hu hd
    · exact within_of_not_due _ (h.windows u hu).2 hd

end Since

variable {q : QuotaState C}

theorem Since.canAfford (h : Since q now) (cost : C) : Since (canAfford now now cost q).2 now := by
  unfold Cost.canAfford
  split
  · refine ⟨h.day, fun u hu => ?_⟩
    obtain ⟨v, hv, rfl⟩ := mem_map.mp hu
    exact settle_since (h.windows v hv)
  · exact h.settleDay

theorem Since.replay : ∀ (calls : List (Int × Bool × C)) {now : Int} {q : QuotaState C},
    Since q now → (now :: calls.map Prod.fst).Pairwise (· ≤ ·) → ∃ last, Since (replay q calls) last
  | [], now, _, h, _ => ⟨now, h⟩
  | (later, recorded, cost) :: calls, now, q, h, hs => by
    obtain ⟨hle, hs⟩ := pairwise_cons.mp hs
    have hl := h.mono (hle later (.head _))
    cases recorded with
    | false => exact Since.replay calls (hl.canAfford cost) hs
    | true => exact Since.replay calls (hl.recordCost cost) hs

/-- The same of the costs the check compares, once it has reset what is due. -/
def FreshCheck (q : QuotaState C) (now : Int) : Prop :=
  (∀ u ∈ q.windows, Within u.windowDuration now u.recorded)
    ∧ (q.windows = [] → (0 < q.dailyCostLimit → Within dayNs now q.day)
      ∧ (0 < q.monthlyCostLimit → Within (31 * dayNs) now q.month))

/-- The status and the check of a request that costs nothing say the same, and neither counts a
cost older than its period. -/
def Agrees (q : QuotaState C) (now : Int) : Prop :=
  (quotaExceeded q = true ↔ (canAfford now now 0 q).1 = false)
    ∧ FreshStatus q now ∧ FreshCheck (canAfford now now 0 q).2 now

/-- A window that counts is over its limit. Else the day, or a window that is due, is over its
limit exactly if a window that is due has a negative limit. -/
def AlikeWindowed (q : QuotaState C) (now : Int) : Prop :=
  (∃ u ∈ q.windows, ¬ u.Due now ∧ u.windowLimit < used u.recorded)
    ∨ (q.dailyCostLimit < used q.day
        ∨ (∃ u ∈ q.windows, u.Due now ∧ u.windowLimit < used u.recorded)
      ↔ ∃ u ∈ q.windows, u.Due now ∧ u.windowLimit < 0)

/-- Where the month is over its limit, the day is too. Else the day is over its limit only if that
is set and the day is not due. -/
def AlikeLegacy (q : QuotaState C) (now : Int) : Prop :=
  if 0 < q.monthlyCostLimit ∧ q.monthlyCostLimit < used q.month
    then q.dailyCostLimit < used q.day
    else q.dailyCostLimit < used q.day → 0 < q.dailyCostLimit ∧ ¬ q.DayDue now

/-- A counter that is due holds no cost older than its period, nor does the month's where it
counts; and what the status compares beside the check makes no difference. -/
structure Plain (q : QuotaState C) (now : Int) : Prop where
  day : q.DayDue now → Within dayNs now q.day
  windows : ∀ u ∈ q.windows, u.Due now → Within u.windowDuration now u.recorded
  month : q.windows = [] → 0 < q.monthlyCostLimit → Within (31 * dayNs) now q.month
  alike : if q.windows ≠ [] then AlikeWindowed q now else AlikeLegacy q now

section Status

variable {now : Int}

theorem freshCheck_iff (h : Since q t) : FreshCheck (canAfford now now 0 q).2 now
    ↔ (q.windows = [] → 0 < q.monthlyCostLimit → Within (31 * dayNs) now q.month) := by
  unfold canAfford
  split <;> rename_i hne
  · refine ⟨fun _ he => absurd he hne, fun _ => ⟨fun u hu => ?_, fun he => ?_⟩⟩
    · obtain ⟨v, hv, rfl⟩ := mem_map.mp hu
      exact settle_within (h.windows v hv).2
    · exact absurd (map_eq_nil_iff.mp he) hne
  · have hm : (q.settleDay now now).monthlyCostLimit = q.monthlyCostLimit
        ∧ (q.settleDay now now).month = q.month := by
      unfold QuotaState.settleDay
      split <;> exact ⟨rfl, rfl⟩
    rw [FreshCheck, settleDay_windows, not_not.mp hne, hm.1, hm.2]
    exact ⟨fun hf _ => (hf.2 rfl).2,
      fun hf => ⟨nofun, fun _ => ⟨fun _ => settleDay_within h.day.2, hf rfl⟩⟩⟩

theorem settle_over (u : WindowUsage C) :
    (u.settle now now).windowLimit < used (u.settle now now).recorded + 0
    ↔ (¬ u.Due now ∧ u.windowLimit < used u.recorded) ∨ (u.Due now ∧ u.windowLimit < 0) := by
  rw [add_zero, WindowUsage.settle, WindowUsage.Due]
  split <;> rename_i hd <;> simp [hd, used]

theorem alike_windowed (hne : q.windows ≠ []) :
    (quotaExceeded q = true ↔ (canAfford now now 0 q).1 = false) ↔ AlikeWindowed q now := by
  have hrefused : (canAfford now now 0 q).1 = false
      ↔ (∃ u ∈ q.windows, ¬ u.Due now ∧ u.windowLimit < used u.recorded)
        ∨ ∃ u ∈ q.windows, u.Due now ∧ u.windowLimit < 0 := by
    rw [canAfford, if_pos hne]
    simp only [all_map, all_eq_false, Function.comp_apply, Bool.not_eq_true',
      decide_eq_false_iff_not,
      not_not, settle_over, and_or_left, exists_or]
  have hexceeded : quotaExceeded q = true ↔ (∃ u ∈ q.windows, ¬ u.Due now
      ∧ u.windowLimit < used u.recorded) ∨ q.dailyCostLimit < used q.day
        ∨ ∃ u ∈ q.windows, u.Due now ∧ u.windowLimit < used u.recorded := by
    rw [quotaExceeded, Bool.or_eq_true, decide_eq_true_eq, any_eq_true, or_left_comm]
    refine or_congr_right ⟨fun ⟨u, hu, hl⟩ => ?_, fun hor => ?_⟩
    · by_cases hd : u.Due now
      · exact .inr ⟨u, hu, hd, of_decide_eq_true hl⟩
      · exact .inl ⟨u, hu, hd, of_decide_eq_true hl⟩
    · obtain ⟨u, hu, _, hl⟩ | ⟨u, hu, _, hl⟩ := hor <;> exact ⟨u, hu, decide_eq_true hl⟩
  rw [hrefused, hexceeded, AlikeWindowed]
  by_cases hn : ∃ u ∈ q.windows, ¬ u.Due now ∧ u.windowLimit < used u.recorded
  · simp only [hn, true_or]
  · simp only [hn, false_or]

theorem alike_legacy (hnil : q.windows = []) :
    (quotaExceeded q = true ↔ (canAfford now now 0 q).1 = false) ↔ AlikeLegacy q now := by
  have hrefused : (canAfford now now 0 q).1 = false
      ↔ (0 < q.dailyCostLimit ∧ ¬ q.DayDue now ∧ q.dailyCostLimit < used q.day)
        ∨ (0 < q.monthlyCostLimit ∧ q.monthlyCostLimit < used q.month) := by
    rw [canAfford, if_neg (not_not.mpr hnil), QuotaState.settleDay, QuotaState.DayDue]
    simp only [exceeds, Bool.and_eq_false_iff, Bool.not_eq_false', Bool.and_eq_true,
      decide_eq_true_eq, add_zero]
    split <;> rename_i hd
    · simp only [used, hd, not_true_eq_false, false_and, and_false, false_or, or_iff_right_iff_imp]
      exact fun h => absurd h.1 (lt_asymm h.2)
    · simp only [hd, not_false_eq_true, true_and]
  have hexceeded : quotaExceeded q = true ↔ q.dailyCostLimit < used q.day := by
    simp [quotaExceeded, hnil]
  rw [hrefused, hexceeded, AlikeLegacy]
  split <;> tauto

end Status

end Rah.Limit.Cost
