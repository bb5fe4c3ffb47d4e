import Rah.Flow.Executor
import Mathlib.Data.List.Perm.Subperm
import Mathlib.Data.List.Sort
import Mathlib.Logic.Function.Iterate
import Mathlib.Order.Lattice

/-!
# Fragment calls

A call pushes its return address: the first 16 of them go to the array of the execution
state, the next 112 to a block that is borrowed when it is needed. The return the compiler
emits at the end of a fragment (`newReturnStep`) reads the array alone, and an index outside
it panics. All other instructions leave the stack as it is.

What calls are for is `Callee`: a fragment runs to its return, and every call in it runs its
own fragment to its return and goes on behind the call. The machine does this as long as no
more than 16 calls are open at once, by induction over the calls in the run; with one more,
the stack has grown past what a return can read, and never comes down again. The depth the
compiler computes bounds how many calls a run can have open.
-/

namespace Rah.Flow.Calls

open Rah.Lib Function

variable {σ : Type}

/-- `LinkStack`, `LinkExt` and `StackPtr`. -/
structure Links where
  linkStack : Nat → Int
  linkExt : Option (Nat → Int)
  stackPtr : Nat

/-- The stack `Execute` starts with. -/
def Links.start (maxCallDepth : Int) : Links :=
  ⟨fun _ => 0, if 15 < maxCallDepth then some (fun _ => 0) else none, 0⟩

inductive Instr (σ : Type) where
  | plain (action : InstructionFunc σ)
  | call (entryID : Int)
  | ret

def callFragment (entryID : Int) (ctx : Ctx σ) (state : ExecutionState) (l : Links) :
    Int × Ctx σ × Links :=
  if l.stackPtr < 16 then
    (entryID, ctx, { l with linkStack := update l.linkStack l.stackPtr state.next,
                            stackPtr := l.stackPtr + 1 })
  else if l.stackPtr < 128 then
    let ext := l.linkExt.getD (fun _ => 0)
    (entryID, ctx, { l with linkExt := some (update ext (l.stackPtr - 16) state.next),
                            stackPtr := l.stackPtr + 1 })
  else (stopPlan, { ctx with failed := true, responseStatus := 500 }, l)

/-- `newReturnStep`; `none` is a panic. -/
def newReturnStep (l : Links) : Option (Int × Links) :=
  match l.stackPtr with
  | 0 => some (stopPlan, l)
  | sp + 1 => if sp < 16 then some (l.linkStack sp, { l with stackPtr := sp }) else none

structure Machine (σ : Type) extends Config σ where
  links : Links

def Instr.run (i : Instr σ) (m : Machine σ) : Option (Machine σ) :=
  let state := { m.state with pc := m.pc }
  match i with
  | .plain action => (action m.ctx state).map (fun r => ⟨redirect r.1 r.2.1 r.2.2, m.links⟩)
  | .call entryID =>
    let r := callFragment entryID m.ctx state m.links
    some ⟨redirect r.1 r.2.1 state, r.2.2⟩
  | .ret => (newReturnStep m.links).map (fun r => ⟨redirect r.1 m.ctx state, r.2⟩)

def At (table : List (Instr σ)) (c : Config σ) (i : Instr σ) : Prop :=
  (0 ≤ c.pc ∧ c.pc < int16 table.length) ∧ table[c.pc.toNat]? = some i

/-- One turn of the loop of `Execute`. -/
def turn (table : List (Instr σ)) (m : Machine σ) : Option (Machine σ) :=
  if 0 ≤ m.pc ∧ m.pc < int16 table.length then table[m.pc.toNat]? >>= (·.run m) else none

/-- A frame that was entered at `entry` runs from one configuration to its return, with at most
`n` calls open at once. `In` says which addresses a frame may visit. -/
inductive Callee (table : List (Instr σ)) (In : Int → Int → Prop) :
    Int → Nat → Config σ → Config σ → Prop where
  | ret : In entry c.pc → At table c .ret → Callee table In entry 0 c c
  | plain : In entry c.pc → At table c (.plain action) →
      action c.ctx { c.state with pc := c.pc } = some (pc, ctx, state) →
      Callee table In entry n (redirect pc ctx state) d → Callee table In entry n c d
  | call : In entry c.pc → At table c (.call entryID) →
      Callee table In entryID k ⟨entryID, c.ctx, { c.state with pc := c.pc }⟩ d →
      Callee table In entry n ⟨c.pc + 1, d.ctx, { d.state with pc := d.pc }⟩ e →
      Callee table In entry (max (k + 1) n) c e

variable {table : List (Instr σ)} {In : Int → Int → Prop} {m m' : Machine σ} {i : Instr σ}
variable {c d : Config σ} {e : Machine σ} {entry entryID : Int} {n sp : Nat}

theorem At.inj (h : At table c i) (h' : At table c j) : i = j :=
  Option.some.inj (h.2.symm.trans h'.2)

theorem Callee.at_ret (h : Callee table In entry n c d) : At table d .ret := by
  induction h with
  | ret _ h => exact h
  | plain _ _ _ _ ih => exact ih
  | call _ _ _ _ _ ih => exact ih

theorem Callee.pc_nonneg (h : Callee table In entry n c d) : 0 ≤ c.pc := by
  cases h with
  | ret _ h => exact h.1.1
  | plain _ h _ _ => exact h.1.1
  | call _ h _ _ => exact h.1.1

/-! ## Turns -/

theorem At.turn (h : At table m.toConfig i) : turn table m = i.run m := by
  rw [Calls.turn, if_pos h.1, h.2]
  rfl

/-- The address after an instruction of the table. -/
theorem At.next (h : At table c i) : int16 (c.pc + 1) = c.pc + 1 := by
  have hlt : int16 table.length < 32768 := by
    rw [int16, Int.bmod_def]
    split <;> omega
  obtain ⟨⟨h0, hl⟩, _⟩ := h
  exact int16_of_lt (by omega) (by omega)

/-- A call of a frame that the array has room for. -/
theorem turn_call (h : At table m.toConfig (.call entryID)) (h0 : 0 ≤ entryID)
    (hsp : m.links.stackPtr < 16) :
    turn table m = some ⟨⟨entryID, m.ctx, { m.state with pc := m.pc }⟩,
      { m.links with
        linkStack := update m.links.linkStack m.links.stackPtr (m.pc + 1)
        stackPtr := m.links.stackPtr + 1 }⟩ := by
  rw [h.turn, Instr.run, callFragment, if_pos hsp]
  dsimp only
  rw [redirect_of_ne (by rw [stopPlan]; omega), ExecutionState.next, h.next]

theorem turn_ret (h : At table m.toConfig .ret) (hp : m.links.stackPtr = sp + 1) (hsp : sp < 16)
    (h0 : 0 ≤ m.links.linkStack sp) :
    turn table m = some ⟨⟨m.links.linkStack sp, m.ctx, { m.state with pc := m.pc }⟩,
      { m.links with stackPtr := sp }⟩ := by
  rw [h.turn, Instr.run, newReturnStep, hp]
  dsimp only
  rw [if_pos hsp, Option.map_some, redirect_of_ne (by rw [stopPlan]; omega)]

/-- The stack has grown past what a return reads, and does not come down again. -/
theorem turn_deep (h : turn table m = some m') (hd : 16 < m.links.stackPtr) :
    m.links.stackPtr ≤ m'.links.stackPtr := by
  rw [turn] at h
  split at h
  · obtain ⟨i, _, hi⟩ := Option.bind_eq_some_iff.mp h
    cases i with
    | plain action =>
      obtain ⟨_, _, rfl⟩ := Option.map_eq_some_iff.mp hi
      exact le_rfl
    | call entryID =>
      cases hi
      dsimp only
      rw [callFragment, if_neg (by omega)]
      split
      · exact Nat.le_succ _
      · exact le_rfl
    | ret =>
      obtain ⟨r, hr, rfl⟩ := Option.map_eq_some_iff.mp hi
      rw [newReturnStep] at hr
      split at hr
      · omega
      · rw [if_neg (by omega)] at hr
        cases hr
  · cases h

theorem path_deep (h : Path (turn table) m vs m') (hd : 16 < m.links.stackPtr) :
    m.links.stackPtr ≤ m'.links.stackPtr := by
  induction h with
  | nil => exact le_rfl
  | cons ht _ ih =>
    have hle := turn_deep ht hd
    exact Nat.le_trans hle (ih (by omega))

/-- The 17th call goes to the borrowed block. -/
theorem turn_call_full (h : At table m.toConfig (.call entryID)) (hsp : m.links.stackPtr = 16)
    (ht : turn table m = some m') : m'.links.stackPtr = 17 := by
  rw [h.turn, Instr.run] at ht
  cases ht
  dsimp only
  rw [callFragment, if_neg (by omega), if_pos (by omega)]
  exact congrArg (· + 1) hsp

/-! ## Frames -/

/-- The frame above `sp` return addresses is at its return, or has been left. -/
def Done (table : List (Instr σ)) (sp : Nat) (m : Machine σ) : Prop :=
  m.links.stackPtr < sp ∨ m.links.stackPtr = sp ∧ At table m.toConfig .ret

theorem Done.succ (h : Done table sp m) : Done table (sp + 1) m := by
  rcases h with hlt | ⟨he, _⟩
  · exact .inl (by omega)
  · exact .inl (by omega)

theorem not_done_of_lt (h : sp < m.links.stackPtr) : ¬ Done table sp m := by
  rintro (hlt | ⟨he, _⟩) <;> omega

theorem not_done_of_at (h : At table m.toConfig i) (hi : i ≠ .ret) (hsp : m.links.stackPtr = sp) :
    ¬ Done table sp m := by
  rintro (hlt | ⟨_, hr⟩)
  · omega
  · exact hi (h.inj hr)

/-- The stack is as it was: as high, with the return addresses of the open calls. -/
def Same (l l' : Links) : Prop :=
  l'.stackPtr = l.stackPtr ∧ ∀ k < l.stackPtr, l'.linkStack k = l.linkStack k

/-- The machine reaches a configuration in the same frame, before that frame is done. -/
def Reaches (table : List (Instr σ)) (m : Machine σ) (d : Config σ) : Prop :=
  ∃ vs m', Path (turn table) m vs m' ∧ m'.toConfig = d ∧ Same m.links m'.links
    ∧ ∀ v ∈ vs, ¬ Done table m.links.stackPtr v

/-- The configuration behind a call whose callee has come to its return `d`. -/
def behind (pc : Int) (d : Config σ) : Config σ := ⟨pc + 1, d.ctx, { d.state with pc := d.pc }⟩

/-- A call whose callee comes to its return, with room in the array for the return address:
the machine comes behind the call with the stack as it was. -/
theorem reaches_behind (hat : At table m.toConfig (.call entryID)) (h0 : 0 ≤ entryID)
    (hsp : m.links.stackPtr < 16) (hr : At table d .ret)
    (hin : ∀ m₁, turn table m = some m₁ → Reaches table m₁ d) :
    Reaches table m (behind m.pc d) := by
  have ht := turn_call hat h0 hsp
  obtain ⟨vs, m₁, hp, rfl, hs, hv⟩ := hin _ ht
  have htop : m₁.links.linkStack m.links.stackPtr = m.pc + 1 :=
    (hs.2 _ (Nat.lt_succ_self _)).trans (update_self ..)
  have hback := turn_ret hr hs.1 hsp (by rw [htop]; have := hat.1.1; omega)
  rw [htop] at hback
  refine ⟨_, _, .cons ht (hp.append (.single hback)), rfl, ⟨rfl, fun k hk => ?_⟩, ?_⟩
  · exact (hs.2 k (Nat.lt_succ_of_lt hk)).trans (update_of_ne (by omega) ..)
  · refine List.forall_mem_cons.mpr ⟨not_done_of_at hat nofun rfl, ?_⟩
    refine List.forall_mem_append.mpr ⟨fun v hvs hd => hv v hvs hd.succ, ?_⟩
    refine List.forall_mem_singleton.mpr (not_done_of_lt ?_)
    rw [hs.1]
    exact Nat.lt_succ_self _

theorem Reaches.trans {m : Machine σ} (h : Reaches table m c)
    (h' : ∀ m', m'.toConfig = c → m'.links.stackPtr = m.links.stackPtr → Reaches table m' d) :
    Reaches table m d := by
  obtain ⟨vs, m₁, hp, hc, hs, hv⟩ := h
  obtain ⟨ws, m₂, hp', hd, hs', hv'⟩ := h' m₁ hc hs.1
  rw [Same, hs.1] at hs'
  rw [hs.1] at hv'
  refine ⟨_, m₂, hp.append hp', hd, ⟨hs'.1, fun k hk => (hs'.2 k hk).trans (hs.2 k hk)⟩, ?_⟩
  exact List.forall_mem_append.mpr ⟨hv, hv'⟩

theorem turn_plain (h : At table m.toConfig (.plain action))
    (ha : action m.ctx { m.state with pc := m.pc } = some (pc, ctx, state)) :
    turn table m = some ⟨redirect pc ctx state, m.links⟩ := by
  rw [h.turn, Instr.run, ha]
  rfl

/-- **A frame runs to its return** if the array has room for all the calls it has open. -/
theorem Callee.reaches (h : Callee table In entry n c d) : ∀ {m : Machine σ}, m.toConfig = c →
    m.links.stackPtr + n ≤ 16 → Reaches table m d := by
  induction h with
  | ret _ hr =>
    rintro m rfl _
    exact ⟨[], m, .nil m, rfl, ⟨rfl, fun _ _ => rfl⟩, nofun⟩
  | plain _ hat ha _ ih =>
    rintro m rfl hn
    obtain ⟨vs, m', hp, hd, hs, hv⟩ := ih (m := ⟨_, m.links⟩) rfl hn
    refine ⟨m :: vs, m', .cons (turn_plain hat ha) hp, hd, hs, ?_⟩
    exact List.forall_mem_cons.mpr ⟨not_done_of_at hat nofun rfl, hv⟩
  | call _ hat hcal _ ih ih' =>
    rintro m rfl hn
    have hsp : m.links.stackPtr < 16 := by omega
    have hback := reaches_behind hat hcal.pc_nonneg hsp hcal.at_ret fun m₁ ht => by
      cases (turn_call hat hcal.pc_nonneg hsp).symm.trans ht
      exact ih rfl (by dsimp only; omega)
    exact hback.trans fun m' hc hs => ih' hc (by omega)

/-- **A frame that opens one call too many never comes to its return.** The machine panics, or
runs on above it. -/
theorem Callee.deep (h : Callee table In entry n c d) : ∀ {m : Machine σ} {vs}, m.toConfig = c →
    m.links.stackPtr ≤ 16 → 16 < m.links.stackPtr + n → Path (turn table) m vs e →
    ¬ Done table m.links.stackPtr e := by
  induction h with
  | ret _ _ =>
    rintro m vs rfl hsp hn
    omega
  | plain _ hat ha _ ih =>
    rintro m vs rfl hsp hn hp
    cases hp with
    | nil => exact not_done_of_at hat nofun rfl
    | cons ht hp =>
      cases (turn_plain hat ha).symm.trans ht
      have hdeep := ih rfl (by exact hsp) (by exact hn) hp
      exact hdeep
  | @call _ _ _ k _ n _ _ hat hcal _ ih ih' =>
    rintro m vs rfl hsp hn hp
    by_cases hk : m.links.stackPtr + (k + 1) ≤ 16
    · -- the call comes back, and what follows it is too deep
      have hlt : m.links.stackPtr < 16 := by omega
      obtain ⟨ws, m₁, hw, hc, hs, hv⟩ :=
        reaches_behind hat hcal.pc_nonneg hlt hcal.at_ret fun m₁ ht => by
          cases (turn_call hat hcal.pc_nonneg hlt).symm.trans ht
          exact hcal.reaches rfl (by dsimp only; omega)
      intro hd
      obtain ⟨us, _, hu⟩ := hw.through hv hp hd
      have hsp₁ := hs.1
      exact ih' hc (by omega) (by omega) hu (hsp₁ ▸ hd)
    · cases hp with
      | nil => exact not_done_of_at hat nofun rfl
      | cons ht hp =>
      by_cases hfull : m.links.stackPtr = 16
      · have h17 := turn_call_full hat hfull ht
        have hle := path_deep hp (by omega)
        exact not_done_of_lt (by omega)
      · cases (turn_call hat hcal.pc_nonneg (by omega)).symm.trans ht
        have hdeep := ih rfl (by dsimp only; omega) (by dsimp only; omega) hp
        exact fun hd => hdeep hd.succ

/-- The call at `m` returns: it is made, and the machine comes behind it with the stack as it
was. -/
def Returns (table : List (Instr σ)) (m : Machine σ) (d : Config σ) : Prop :=
  ∃ m₁ vs m', turn table m = some m₁ ∧ m₁.links.stackPtr = m.links.stackPtr + 1
    ∧ Path (turn table) m₁ vs m' ∧ m'.toConfig = behind m.pc d ∧ Same m.links m'.links

theorem return_iff (hc : At table m.toConfig (.call entryID))
    (hrun : Callee table In entryID n ⟨entryID, m.ctx, { m.state with pc := m.pc }⟩ d) :
    Returns table m d ↔ m.links.stackPtr + n < 16 := by
  constructor
  · rintro ⟨m₁, vs, m', ht, h₁, hp, _, hs⟩
    by_contra hn
    by_cases hsp : m.links.stackPtr < 16
    · cases (turn_call hc hrun.pc_nonneg hsp).symm.trans ht
      refine hrun.deep rfl (by dsimp only; omega) (by dsimp only; omega) hp (.inl ?_)
      rw [hs.1]
      exact Nat.lt_succ_self _
    · have hle := path_deep hp (by omega)
      have := hs.1
      omega
  · intro hn
    have hsp : m.links.stackPtr < 16 := by omega
    obtain ⟨vs, m', hp, hd, hs, _⟩ := reaches_behind hc hrun.pc_nonneg hsp hrun.at_ret
      fun m₁ ht => by
        cases (turn_call hc hrun.pc_nonneg hsp).symm.trans ht
        exact hrun.reaches rfl (by dsimp only; omega)
    cases hp with
    | nil =>
      have hpc : m.pc = m.pc + 1 := congrArg Config.pc hd
      omega
    | cons ht hp =>
      cases (turn_call hc hrun.pc_nonneg hsp).symm.trans ht
      exact ⟨_, _, m', ht, rfl, hp, hd, hs⟩

/-! ## The depth the compiler computes -/

/-- `int8(x)`. -/
def int8 (n : Int) : Int := n.bmod 256

/-- Where the table has a call, and what it calls. -/
def callInstrTargets (table : List (Instr σ)) : List (Int × Int) :=
  table.zipIdx.filterMap fun (i, pc) =>
    match i with
    | .call entryID => some ((pc : Int), entryID)
    | _ => none

def fragEndPC (fragStarts : List Int) (length : Nat) (start : Int) : Int :=
  ((fragStarts.insertionSort (· ≤ ·)).find? (start < ·)).getD (int16 length)

/-- `dfs`: the greatest depth met so far, after all calls between `start` and `stop` have been
followed. `visited` is the way down to this fragment, so it runs out of targets. -/
def dfs (targets : List (Int × Int)) (fragEnd : Int → Int) :
    Nat → List Int → Int → Int → Int → Int → Int
  | 0, _, _, _, depth, maxDepth => max maxDepth depth
  | fuel + 1, visited, start, stop, depth, maxDepth =>
    targets.foldl (fun maxDepth call =>
      if call.1 < start ∨ stop ≤ call.1 ∨ call.2 ∈ visited then maxDepth
      else dfs targets fragEnd fuel (call.2 :: visited) call.2 (fragEnd call.2) (int8 (depth + 1))
        maxDepth) (max maxDepth depth)

def computeMaxCallDepth (table : List (Instr σ)) (fragStarts : List Int) (planEnd : Int) : Int :=
  let targets := callInstrTargets table
  if targets = [] then 0
  else dfs targets (fragEndPC fragStarts table.length) (targets.length + 1) [] 0 planEnd 0 0

/-- A frame stays between the start of its fragment and the start of the next. -/
def Within (table : List (Instr σ)) (fragStarts : List Int) (entry pc : Int) : Prop :=
  entry ≤ pc ∧ pc < fragEndPC fragStarts table.length entry

/-- No fragment calls itself, directly or through others: the fragments can be ranked so that
each one calls lower ones only. -/
def NonRecursive (table : List (Instr σ)) (fragStarts : List Int) (rank : Int → Nat) : Prop :=
  ∀ call ∈ callInstrTargets table, ∀ entry ∈ (callInstrTargets table).map Prod.snd,
    Within table fragStarts entry call.1 → rank call.2 < rank entry

variable {targets : List (Int × Int)} {fragEnd : Int → Int} {fragStarts visited : List Int}
variable {fuel : Nat} {first stop depth maxDepth : Int} {rank : Int → Nat}

theorem le_foldl {α : Type} {f : Int → α → Int} (hf : ∀ a x, a ≤ f a x) :
    ∀ (l : List α) (a : Int), a ≤ l.foldl f a
  | [], _ => le_rfl
  | x :: l, a => (hf a x).trans (le_foldl hf l (f a x))

theorem le_foldl_of_mem {α : Type} {f : Int → α → Int} (hf : ∀ a x, a ≤ f a x) {b : Int}
    {x : α} (hx : ∀ a, b ≤ f a x) : ∀ {l : List α} (a : Int), x ∈ l → b ≤ l.foldl f a
  | y :: l, a, h => by
    rcases List.mem_cons.mp h with rfl | hm
    · exact (hx a).trans (le_foldl hf l _)
    · exact le_foldl_of_mem hf hx (f a y) hm

theorem le_dfs : ∀ {fuel visited start stop depth maxDepth},
    max maxDepth depth ≤ dfs targets fragEnd fuel visited start stop depth maxDepth
  | 0, _, _, _, _, _ => le_rfl
  | fuel + 1, _, _, _, _, _ => le_foldl (fun a call => by
      split
      · exact le_rfl
      · exact (le_max_left ..).trans le_dfs) ..

/-- A call that is followed counts with all that its fragment counts. -/
theorem le_dfs_of_call (hmem : call ∈ targets) (hs : first ≤ call.1) (he : call.1 < stop)
    (hv : call.2 ∉ visited) {b : Int}
    (hb : ∀ a, b ≤ dfs targets fragEnd fuel (call.2 :: visited) call.2 (fragEnd call.2)
      (int8 (depth + 1)) a) :
    b ≤ dfs targets fragEnd (fuel + 1) visited first stop depth maxDepth := by
  rw [dfs]
  refine le_foldl_of_mem (fun a call => ?_) (fun a => ?_) _ hmem
  · split
    · exact le_rfl
    · exact (le_max_left ..).trans le_dfs
  · rw [if_neg (by simp [hv, hs, he])]
    exact hb a

theorem At.mem_targets (h : At table c (.call entryID)) :
    (c.pc, entryID) ∈ callInstrTargets table := by
  refine List.mem_filterMap.mpr ⟨(.call entryID, c.pc.toNat), ?_, ?_⟩
  · exact List.mk_mem_zipIdx_iff_getElem?.mpr h.2
  · have := h.1.1
    simp only [Option.some.injEq, Prod.mk.injEq, and_true]
    omega

/-- The way down the search has taken: distinct targets, none of a lower rank than `entry`,
and fuel for those that are left. -/
structure Way (targets : List (Int × Int)) (rank : Int → Nat) (entry : Int) (fuel : Nat)
    (visited : List Int) : Prop where
  nodup : visited.Nodup
  called : ∀ v ∈ visited, v ∈ targets.map Prod.snd
  above : ∀ v ∈ visited, rank entry ≤ rank v
  left : fuel + visited.length = targets.length + 1

theorem Way.fresh (h : Way targets rank entry fuel visited) (hr : rank t < rank entry) :
    t ∉ visited :=
  fun hm => absurd (h.above t hm) (by omega)

theorem Way.call (h : Way targets rank entry (fuel + 1) visited) (hm : (pc, t) ∈ targets)
    (hv : t ∉ visited) (hr : rank t ≤ rank entry) :
    Way targets rank t fuel (t :: visited) where
  nodup := List.nodup_cons.mpr ⟨hv, h.nodup⟩
  called := List.forall_mem_cons.mpr ⟨List.mem_map.mpr ⟨_, hm, rfl⟩, h.called⟩
  above := List.forall_mem_cons.mpr ⟨le_rfl, fun v hm => hr.trans (h.above v hm)⟩
  left := by
    have := h.left
    rw [List.length_cons]
    omega

theorem Way.fuel_pos (h : Way targets rank entry fuel visited) : ∃ fuel', fuel = fuel' + 1 := by
  have hle := (List.subperm_of_subset h.nodup h.called).length_le
  have := h.left
  rw [List.length_map] at hle
  exact ⟨fuel - 1, by omega⟩

theorem int8_succ (h0 : 0 ≤ depth) (h : depth < 127) : int8 (depth + 1) = depth + 1 := by
  rw [int8, Int.bmod_def]
  split <;> omega

/-- **The search sees every nesting a run can have**, up to what an `int8` holds. -/
theorem Callee.le_dfs (hrank : NonRecursive table fragStarts rank)
    (h : Callee table (Within table fragStarts) entry n c d) :
    ∀ {fuel visited} {depth maxDepth : Int}, Way (callInstrTargets table) rank entry fuel visited →
      entry ∈ (callInstrTargets table).map Prod.snd → 0 ≤ depth → depth ≤ 127 →
      min (depth + n) 127 ≤ dfs (callInstrTargets table)
        (fragEndPC fragStarts table.length) fuel visited entry
        (fragEndPC fragStarts table.length entry) depth maxDepth := by
  induction h with
  | ret _ _ =>
    intro fuel visited depth maxDepth _ _ _ _
    rw [Int.natCast_zero, Int.add_zero]
    exact (min_le_left ..).trans ((le_max_right maxDepth depth).trans Calls.le_dfs)
  | plain _ _ _ _ ih => exact ih
  | @call entry c entryID k _ n _ hin hat _ _ ih ih' =>
    intro fuel visited depth maxDepth hw hentry h0 hle
    have hrest := @ih' fuel visited depth maxDepth hw hentry h0 hle
    rcases hle.eq_or_lt with rfl | hlt
    · exact (min_le_right ..).trans ((le_max_right maxDepth 127).trans Calls.le_dfs)
    obtain ⟨fuel, rfl⟩ := hw.fuel_pos
    have hr := hrank _ hat.mem_targets entry hentry hin
    have hv := hw.fresh hr
    have hcall : min (depth + 1 + k) 127 ≤ dfs (callInstrTargets table)
        (fragEndPC fragStarts table.length) (fuel + 1) visited entry
        (fragEndPC fragStarts table.length entry) depth maxDepth := by
      refine le_dfs_of_call hat.mem_targets hin.1 hin.2 hv fun a => ?_
      rw [int8_succ h0 hlt]
      exact ih (hw.call hat.mem_targets hv hr.le) (List.mem_map.mpr ⟨_, hat.mem_targets, rfl⟩)
        (by omega) (by omega)
    omega

/-- A plan whose depth the compiler computes as at most 16: each of its calls returns. -/
theorem returns_of_maxCallDepth (hrank : NonRecursive table fragStarts rank)
    (hdepth : computeMaxCallDepth table fragStarts planEnd ≤ 16)
    (hsp : m.links.stackPtr = 0) (hpc : m.pc < planEnd)
    (hc : At table m.toConfig (.call entryID))
    (hrun : Callee table (Within table fragStarts) entryID n
      ⟨entryID, m.ctx, { m.state with pc := m.pc }⟩ d) :
    Reaches table m (behind m.pc d) := by
  have hmem := hc.mem_targets
  rw [computeMaxCallDepth, if_neg (List.ne_nil_of_mem hmem)] at hdepth
  have hroot : Way (callInstrTargets table) rank entryID ((callInstrTargets table).length + 1) [] :=
    ⟨List.nodup_nil, nofun, nofun, rfl⟩
  have hway := hroot.call hmem List.not_mem_nil le_rfl
  have hle : min (0 + 1 + n : Int) 127 ≤ dfs (callInstrTargets table)
      (fragEndPC fragStarts table.length) ((callInstrTargets table).length + 1)
      [] 0 planEnd 0 0 := by
    refine le_dfs_of_call hmem hc.1.1 hpc List.not_mem_nil fun a => ?_
    rw [int8_succ le_rfl (by omega)]
    exact hrun.le_dfs hrank hway (List.mem_map.mpr ⟨_, hmem, rfl⟩) (by omega) (by omega)
  have hn : n < 16 := by omega
  refine reaches_behind hc hrun.pc_nonneg (by omega) hrun.at_ret fun m₁ ht => ?_
  cases (turn_call hc hrun.pc_nonneg (by omega)).symm.trans ht
  exact hrun.reaches rfl (by dsimp only; omega)

/-- A fragment that returns, one that calls it, and a plan that calls the second. -/
def nestedTable : List (Instr Unit) :=
  [.ret, .call 0, .ret, .call 1, .plain (fun ctx state => some (stopPlan, ctx, state))]

def caller : Machine Unit := ⟨start freshCtx 3, .start 2⟩

/-- The way of the plan's call: the inner call to its return, and the outer one to its own. -/
theorem nested_run : Callee nestedTable (fun _ _ => True) 1 1 ⟨1, freshCtx, { caller.state with
    pc := 3 }⟩ ⟨2, freshCtx, { caller.state with pc := 0 }⟩ :=
  .call (k := 0) (n := 0) trivial ⟨by decide, rfl⟩ (.ret trivial ⟨by decide, rfl⟩)
    (.ret trivial ⟨by decide, rfl⟩)

theorem return_nested : Returns nestedTable caller ⟨2, freshCtx, { caller.state with pc := 0 }⟩ :=
  (return_iff ⟨by decide, rfl⟩ nested_run).mpr (by decide)

/-- A fragment that returns, and 16 fragments that each call the one before; the plan calls the
last of them and stops. -/
def deepTable : List (Instr Unit) :=
  .ret :: (List.range 16).flatMap (fun k => [.call (2 * k - 1 : Nat), .ret])
    ++ [.call 31, .plain (fun ctx state => some (stopPlan, ctx, state))]

/-- The compiler counts 17 calls in each other. The 17th is made, and its return panics. -/
theorem deep_return_panics :
    computeMaxCallDepth deepTable ((List.range 17).map fun k => (2 * k - 1 : Nat)) 35 = 17
    ∧ ∃ c c₁, (fun m => m >>= turn deepTable)^[16] (some ⟨start freshCtx 33, .start 17⟩) = some c
      ∧ At deepTable c.toConfig (.call 0) ∧ c.links.stackPtr = 16 ∧ turn deepTable c = some c₁
      ∧ At deepTable c₁.toConfig .ret ∧ c₁.links.stackPtr = 17 ∧ turn deepTable c₁ = none :=
  ⟨by decide +kernel, _, _, rfl, ⟨by decide, rfl⟩, rfl, rfl, ⟨by decide, rfl⟩, rfl, rfl⟩

end Rah.Flow.Calls
