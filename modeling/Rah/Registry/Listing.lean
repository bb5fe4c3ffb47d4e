import Rah.Registry.TenantIds
import Mathlib.Data.List.Nodup
import Mathlib.Data.List.Pairwise

/-!
# Pages of tenants

The manager keeps the ids of its tenants in increasing order, and `sort.Search` cuts that slice
at the first id with a property. A page starts after the cursor and ends with the next one; 0
as a cursor is both the beginning and the end. An id 0, which `uint16` makes of the counter
after 65535, ends a listing too early.
-/

namespace Rah.Registry.Listing

open List Rah.Lib

def insertSortedTenantID (t : Nat) : List Nat → List Nat
  | [] => [t]
  | a :: l => if a < t then a :: insertSortedTenantID t l else if a = t then a :: l else t :: a :: l

def removeSortedTenantID (t : Nat) : List Nat → List Nat
  | [] => []
  | a :: l => if a < t then a :: removeSortedTenantID t l else if a = t then l else a :: l

/-- The ids of the page and the next cursor. -/
def listTenants (l : List Nat) (cursor : Nat) (limit : Int) : List Nat × Nat :=
  let limit := if limit ≤ 0 ∨ 1000 < limit then 100 else limit.toNat
  let rest := if 0 < cursor then l.dropWhile (· ≤ cursor) else l
  let page := rest.take limit
  (page, if limit < rest.length then page.getLast?.getD 0 else 0)

/-- The ids of the manager and the slice of those of its tenants. -/
structure Roll where
  ids : Ids
  tenantIDs : List Nat

def Roll.empty : Roll := ⟨RegistryManager.empty.ids, []⟩

def Roll.act (s : Roll) (act : IdAct) : Roll :=
  ⟨s.ids.act act,
    match act with
    | .create a =>
      if s.ids.aliasMap a = none then insertSortedTenantID s.ids.alloc.1 s.tenantIDs
      else s.tenantIDs
    | .test _ => insertSortedTenantID s.ids.testID s.tenantIDs
    | .claim a id =>
      if s.ids.aliasMap a = none then insertSortedTenantID id s.tenantIDs else s.tenantIDs
    | .drop a =>
      match s.ids.aliasMap a with
      | some t => removeSortedTenantID t s.tenantIDs
      | none => s.tenantIDs
    | _ => s.tenantIDs⟩

/-- Calls of `ListTenants` that pass on the cursor until it is 0, with actions in between: the ids
returned, and the states of the calls. -/
inductive Lists (limit : Int) : Roll → Nat → List Nat → List Roll → Prop where
  | last : (listTenants s.tenantIDs cursor limit).2 = 0 →
      Lists limit s cursor (listTenants s.tenantIDs cursor limit).1 [s]
  | more (acts : List IdAct) : (listTenants s.tenantIDs cursor limit).2 ≠ 0 →
      Lists limit (acts.foldl Roll.act s) (listTenants s.tenantIDs cursor limit).2 ids states →
      Lists limit s cursor ((listTenants s.tenantIDs cursor limit).1 ++ ids) (s :: states)

/-! ## Ordered slices -/

abbrev Increasing (l : List Nat) : Prop := l.Pairwise (· < ·)

variable {l : List Nat} {t x : Nat}

theorem mem_insertSorted : x ∈ insertSortedTenantID t l ↔ x = t ∨ x ∈ l := by
  induction l with
  | nil => simp [insertSortedTenantID]
  | cons a l ih =>
  rw [insertSortedTenantID]
  split
  · simp [ih, or_left_comm]
  · split <;> simp_all

theorem increasing_insertSorted (hl : Increasing l) : Increasing (insertSortedTenantID t l) := by
  induction l with
  | nil => exact pairwise_singleton ..
  | cons a l ih =>
  obtain ⟨ha, hl⟩ := pairwise_cons.mp hl
  rw [insertSortedTenantID]
  split
  · refine (ih hl).cons fun x hx => ?_
    rcases mem_insertSorted.mp hx with rfl | hx
    · assumption
    · exact ha x hx
  · split
    · exact hl.cons ha
    · refine (hl.cons ha).cons fun x hx => ?_
      rcases mem_cons.mp hx with rfl | hx
      · omega
      · have := ha x hx
        omega

theorem removeSorted_sublist : removeSortedTenantID t l <+ l := by
  induction l with
  | nil => exact .slnil
  | cons a l ih =>
  rw [removeSortedTenantID]
  split
  · exact ih.cons_cons a
  · split
    · exact sublist_cons_self a l
    · exact .refl _

theorem mem_removeSorted (hx : x ∈ l) (hne : x ≠ t) : x ∈ removeSortedTenantID t l := by
  induction l with
  | nil => exact hx
  | cons a l ih =>
  rw [removeSortedTenantID]
  split
  · exact mem_cons.mpr ((mem_cons.mp hx).imp_right ih)
  · split
    · rename_i he
      exact (mem_cons.mp hx).resolve_left (he ▸ hne)
    · exact hx

/-- What a page returns, when no tenant has the id 0. -/
structure Page (l : List Nat) (cursor : Nat) (page : List Nat) (next : Nat) : Prop where
  increasing : Increasing page
  above : ∀ x ∈ page, cursor < x
  upTo : next ≠ 0 → cursor < next ∧ ∀ x ∈ page, x ≤ next
  complete : ∀ x ∈ l, cursor < x → (next ≠ 0 → x ≤ next) → x ∈ page

theorem mem_dropWhile_le (hl : Increasing l) : x ∈ l.dropWhile (· ≤ c) ↔ x ∈ l ∧ c < x := by
  induction l with
  | nil => simp
  | cons a l ih =>
  obtain ⟨ha, hl⟩ := pairwise_cons.mp hl
  rw [dropWhile_cons]
  split
  · rename_i hac
    rw [decide_eq_true_eq] at hac
    rw [ih hl, mem_cons]
    exact ⟨fun h => ⟨.inr h.1, h.2⟩, fun h => ⟨h.1.resolve_left (by omega), h.2⟩⟩
  · rename_i hac
    rw [decide_eq_true_eq] at hac
    refine ⟨fun h => ⟨h, ?_⟩, And.left⟩
    rcases mem_cons.mp h with rfl | h
    · omega
    · have := ha x h
      omega

theorem listTenants_page (hl : Increasing l) (h0 : 0 ∉ l) (cursor : Nat) (limit : Int) :
    Page l cursor (listTenants l cursor limit).1 (listTenants l cursor limit).2 := by
  rw [listTenants]
  generalize hn : (if limit ≤ 0 ∨ 1000 < limit then 100 else limit.toNat) = n
  generalize hr : (if 0 < cursor then l.dropWhile (· ≤ cursor) else l) = rest
  have hpos : 0 < n := by rw [← hn]; split <;> omega
  have hmem : ∀ x, x ∈ rest ↔ x ∈ l ∧ cursor < x := fun x => by
    rw [← hr]
    split
    · exact mem_dropWhile_le hl
    · exact ⟨fun hx => ⟨hx, by have : x ≠ 0 := fun he => h0 (he ▸ hx); omega⟩, And.left⟩
  have hinc : Increasing (rest.take n ++ rest.drop n) := by
    rw [take_append_drop, ← hr]
    split
    · exact hl.sublist (dropWhile_sublist _)
    · exact hl
  obtain ⟨hpage, _, hlater⟩ := pairwise_append.mp hinc
  have hab : ∀ x ∈ rest.take n, cursor < x := fun x hx => ((hmem x).mp (mem_of_mem_take hx)).2
  dsimp only
  split
  · have hne : rest.take n ≠ [] := ne_nil_of_length_pos (by rw [length_take]; omega)
    have hlast := getLast_mem hne
    rw [getLast?_eq_some_getLast hne, Option.getD_some]
    refine ⟨hpage, hab, fun _ => ⟨hab _ hlast, fun x hx => ?_⟩, fun x hx hlt hle => ?_⟩
    · exact (hpage.imp Nat.le_of_lt).rel_getLast hx
    · have hx := (hmem x).mpr ⟨hx, hlt⟩
      rw [← take_append_drop n rest, mem_append] at hx
      refine hx.resolve_right fun hx => ?_
      have := hlater _ hlast x hx
      have := hle (Nat.ne_zero_of_lt (hab _ hlast))
      omega
  · rw [take_of_length_le (by omega)] at hpage hab ⊢
    exact ⟨hpage, hab, fun h => absurd rfl h, fun x hx hlt _ => (hmem x).mpr ⟨hx, hlt⟩⟩

/-! ## Listings -/

/-- The tenant has an alias. -/
def Roll.Exists (s : Roll) (t : Nat) : Prop := ∃ a, s.ids.aliasMap a = some t

structure Roll.Ok (s : Roll) : Prop where
  increasing : Increasing s.tenantIDs
  listed : ∀ a t, s.ids.aliasMap a = some t → t ∈ s.tenantIDs

variable {s : Roll}

theorem Roll.Ok.setAlias {ids : Ids} (h : s.Ok) (hm : ids.aliasMap = s.ids.aliasMap)
    (hinc : Increasing l)
    (hs : s.tenantIDs ⊆ l) (ht : t ∈ l) (a : Bytes) : Roll.Ok ⟨ids.setAlias a t, l⟩ := by
  refine ⟨hinc, fun b u hb => ?_⟩
  rcases update_eq_some hb with ⟨-, ⟨⟩⟩ | ⟨-, hb⟩
  · exact ht
  · exact hs (h.listed b u (hm ▸ hb))

theorem Roll.Ok.insert {ids : Ids} (h : s.Ok) (hm : ids.aliasMap = s.ids.aliasMap)
    (a : Bytes) (t : Nat) :
    Roll.Ok ⟨ids.setAlias a t, insertSortedTenantID t s.tenantIDs⟩ :=
  h.setAlias hm (increasing_insertSorted h.increasing) (fun _ hx => mem_insertSorted.mpr (.inr hx))
    (mem_insertSorted.mpr (.inl rfl)) a

theorem Roll.Ok.act (h : s.Ok) (act : IdAct) : (s.act act).Ok := by
  cases act with
  | create a =>
    cases ha : s.ids.aliasMap a with
    | some t => simpa [Roll.act, Ids.act, ha] using h
    | none =>
    have hm : s.ids.alloc.2.aliasMap = s.ids.aliasMap := by
      unfold Ids.alloc
      split <;> rfl
    simpa [Roll.act, Ids.act, ha] using h.insert hm a _
  | test a =>
    have := h.insert rfl a s.ids.testID
    exact ⟨this.increasing, this.listed⟩
  | claim a id =>
    have hm : (s.ids.reserve id).aliasMap = s.ids.aliasMap := rfl
    cases ha : s.ids.aliasMap a with
    | some t =>
      simp only [Roll.act, Ids.act, ha, reduceCtorEq, if_false]
      exact ⟨h.increasing, h.listed⟩
    | none => simpa [Roll.act, Ids.act, ha] using h.insert hm a id
  | link a b =>
    cases hb : s.ids.aliasMap b with
    | none => simpa [Roll.act, Ids.act, hb] using h
    | some t =>
      have := h.setAlias rfl h.increasing (fun _ hx => hx) (h.listed b t hb) a
      simpa [Roll.act, Ids.act, hb] using this
  | linkNew a b =>
    simp only [Roll.act, Ids.act]
    split
    · rename_i t _ hb
      exact h.setAlias rfl h.increasing (fun _ hx => hx) (h.listed b t hb) a
    · exact h
  | drop a =>
    cases ha : s.ids.aliasMap a with
    | none => simpa [Roll.act, Ids.act, ha] using h
    | some t =>
    simp only [Roll.act, Ids.act, ha]
    refine ⟨h.increasing.sublist removeSorted_sublist, fun b u hb => ?_⟩
    dsimp only at hb
    split at hb
    · cases hb
    · rename_i hne
      exact mem_removeSorted (h.listed b u hb) (fun he => hne (he ▸ hb))

theorem Roll.Ok.run (h : s.Ok) (acts : List IdAct) : (acts.foldl Roll.act s).Ok :=
  foldlRecOn acts Roll.act h fun _ h act _ => h.act act

theorem lists_complete (hl : Lists limit s cursor ids states) (hs : s.Ok)
    (h0 : ∀ s ∈ states, 0 ∉ s.tenantIDs) : Increasing ids ∧ (∀ x ∈ ids, cursor < x)
      ∧ ∀ t, cursor < t → (∀ s ∈ states, s.Exists t) → t ∈ ids := by
  induction hl with
  | @last cursor s hn =>
    have hp := listTenants_page hs.increasing (h0 s mem_cons_self) cursor limit
    refine ⟨hp.increasing, hp.above, fun t ht he => ?_⟩
    obtain ⟨a, ha⟩ := he s mem_cons_self
    exact hp.complete t (hs.listed a t ha) ht (fun h => absurd hn h)
  | @more cursor s ids states acts hn _ ih =>
  have hp := listTenants_page hs.increasing (h0 s mem_cons_self) cursor limit
  obtain ⟨hinc, hab, hall⟩ := ih (hs.run acts) (fun _ hs => h0 _ (mem_cons_of_mem _ hs))
  obtain ⟨hlt, hle⟩ := hp.upTo hn
  refine ⟨pairwise_append.mpr ⟨hp.increasing, hinc, fun a ha b hb => ?_⟩, fun x hx => ?_,
    fun t ht he => ?_⟩
  · exact Nat.lt_of_le_of_lt (hle a ha) (hab b hb)
  · rcases mem_append.mp hx with hx | hx
    · exact hp.above x hx
    · exact Nat.lt_trans hlt (hab x hx)
  · obtain ⟨a, ha⟩ := he s mem_cons_self
    by_cases htn : t ≤ (listTenants s.tenantIDs cursor limit).2
    · exact mem_append_left _ (hp.complete t (hs.listed a t ha) ht (fun _ => htn))
    · exact mem_append_right _ (hall t (by omega) (fun _ hs => he _ (mem_cons_of_mem _ hs)))

theorem Lists.start_mem (h : Lists limit s cursor ids states) : s ∈ states := by
  cases h <;> exact mem_cons_self

theorem ok_empty : Roll.empty.Ok := ⟨.nil, nofun⟩

theorem listing_complete (limit : Int) (acts : List IdAct) (ids : List Nat) (states : List Roll)
    (hl : Lists limit (acts.foldl Roll.act Roll.empty) 0 ids states)
    (h0 : ∀ s ∈ states, 0 ∉ s.tenantIDs) :
    Increasing ids ∧ ∀ t, (∀ s ∈ states, s.Exists t) → ids.count t = 1 := by
  have hok := ok_empty.run acts
  obtain ⟨hinc, _, hall⟩ := lists_complete hl hok h0
  refine ⟨hinc, fun t ht => count_eq_one_of_mem (hinc.imp Nat.ne_of_lt) (hall t ?_ ht)⟩
  obtain ⟨a, ha⟩ := ht _ hl.start_mem
  exact Nat.pos_of_ne_zero fun he => h0 _ hl.start_mem (he ▸ hok.listed a t ha)

/-- Two tenants on pages of one; the first goes after its page. -/
theorem listing_complete_two :
    Increasing [1, 2] ∧ ∀ t, (∀ s ∈ [[IdAct.create [1], .create [2]].foldl Roll.act Roll.empty,
      [IdAct.create [1], .create [2], .drop [1]].foldl Roll.act Roll.empty], s.Exists t) →
      [1, 2].count t = 1 := by
  refine listing_complete 1 [.create [1], .create [2]] _ _
    (.more [.drop [1]] (by decide) (.last (by decide))) fun s hs => ?_
  rcases mem_pair.mp hs with rfl | rfl <;> decide

/-- A persisted id of 65535 leaves the counter at 65536, and the next tenant gets the id 0. As a
cursor it ends the listing after that tenant. -/
theorem listing_ends_early : ∃ (acts : List IdAct) (states : List Roll),
    Lists 1 (acts.foldl Roll.act Roll.empty) 0 [0] states
      ∧ ∀ s ∈ states, s.Exists 65535 :=
  ⟨[.claim [1] 65535, .create [2]], _, .last (by decide), fun s hs =>
    ⟨[1], by cases mem_singleton.mp hs; decide⟩⟩

end Rah.Registry.Listing
