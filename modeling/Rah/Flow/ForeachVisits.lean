import Rah.Flow.Foreach

/-!
# What a foreach loop visits

The gate moves the iterator on when it enters the body, and the jump back to the gate
moves it on again. So the loop enters its body with the first, the third, the fifth
element, and with none in between. `foreach_everyOther` is this exact behaviour, for
every table that holds a compiled loop and every body that completes and leaves the
loop's slots alone. The loop visits all elements only when there are fewer than two.

A step may name one slot as its source and as its item. The gate then overwrites the
array it iterates over, and the items after the first are cut out of the wrong text;
how many there are is the same (`visits_length_le`).
-/

namespace Rah.Flow

open Rah.Lib List

variable {σ : Type}

/-- A compiled loop: where it stands and which slots it uses. -/
structure Loop where
  gate : Nat
  /-- The number of instructions of the body. -/
  size : Nat
  sourceSlot : Nat
  valueSlot : Nat
  indexSlot : Nat
  iterSlot : Nat

/-- The address of the jump back. -/
def Loop.back (l : Loop) : Nat := l.gate + 1 + l.size

/-- The address after the loop. -/
def Loop.exit (l : Loop) : Nat := l.back + 1

/-- The table holds the loop as the compiler emits it. The index slot is the loop's own. -/
structure Compiled (forEach : List UInt8 → Option (List (Nat × Nat)))
    (table : List (InstructionFunc σ)) (l : Loop) : Prop where
  gate : table[l.gate]? = some (loopGateSlot forEach l.sourceSlot l.valueSlot l.indexSlot l.iterSlot
    (l.gate + 1) l.exit)
  back : table[l.back]? = some (loopRepeat l.gate l.iterSlot)
  length : table.length < 32768
  indexSource : l.indexSlot ≠ l.sourceSlot
  indexValue : l.indexSlot ≠ l.valueSlot

/-- The slots of the loop are the same. -/
structure Keeps (l : Loop) (ctx ctx' : Ctx σ) : Prop where
  source : ctx'.byteSlots l.sourceSlot = ctx.byteSlots l.sourceSlot
  value : ctx'.byteSlots l.valueSlot = ctx.byteSlots l.valueSlot
  index : ctx'.byteSlots l.indexSlot = ctx.byteSlots l.indexSlot
  iter : ctx'.intSlots l.iterSlot = ctx.intSlots l.iterSlot

/-- The body, entered in any context, comes to the jump back without passing the gate or the
exit, and leaves the slots of the loop alone. -/
def BodyKeeps (table : List (InstructionFunc σ)) (l : Loop) : Prop :=
  ∀ (ctx : Ctx σ) (state : ExecutionState), ∃ ws ctx' state',
    Path (turn table) { pc := l.gate + 1, ctx := ctx, state := state } ws
        { pc := l.back, ctx := ctx', state := state' }
      ∧ (∀ w ∈ ws, w.pc ≠ l.gate ∧ w.pc ≠ l.exit) ∧ Keeps l ctx ctx'

/-- The item slot each time the gate enters the body, along a list of configurations. -/
def entries (l : Loop) : List (Config σ) → List (List UInt8)
  | v :: w :: rest =>
    if v.pc = l.gate ∧ w.pc = l.gate + 1 then
      w.ctx.byteSlots l.valueSlot :: entries l (w :: rest)
    else entries l (w :: rest)
  | _ => []

/-- From the configuration the loop runs to its exit and enters the body with these items. -/
def Visits (table : List (InstructionFunc σ)) (l : Loop) (c : Config σ)
    (items : List (List UInt8)) : Prop :=
  ∃ vs c', Path (turn table) c vs c' ∧ c'.pc = l.exit ∧ (∀ v ∈ vs, v.pc ≠ l.exit)
    ∧ entries l (vs ++ [c']) = items

/-- Elements one, three, five and so on. -/
def everyOther : List (List UInt8) → List (List UInt8)
  | [] => []
  | [x] => [x]
  | x :: _ :: rest => x :: everyOther rest

theorem everyOther_drop {texts : List (List UInt8)} {i : Nat} (h : texts[i]? = some t) :
    everyOther (texts.drop i) = t :: everyOther (texts.drop (i + 2)) := by
  obtain ⟨hlt, ht⟩ := List.getElem?_eq_some_iff.mp h
  rw [drop_eq_getElem_cons hlt, ht]
  by_cases hn : i + 1 < texts.length
  · rw [drop_eq_getElem_cons hn, everyOther]
  · rw [drop_eq_nil_of_le (show texts.length ≤ i + 1 by omega),
      drop_eq_nil_of_le (show texts.length ≤ i + 2 by omega)]
    rfl

/-- The items visited are determined. -/
theorem visits_unique {table : List (InstructionFunc σ)} {l : Loop} (h : Visits table l c items)
    (h' : Visits table l c items') : items = items' := by
  obtain ⟨vs, d, hp, hd, hvs, rfl⟩ := h
  obtain ⟨ws, e, hp', he, hws, rfl⟩ := h'
  have hf : vs = ws ∧ d = e :=
    Path.first_unique (P := fun c : Config σ => c.pc = (l.exit : Int)) hp hp' hd he hvs hws
  rw [hf.1, hf.2]

/-- Configurations away from the gate enter nothing. -/
theorem entries_skip : ∀ {ws : List (Config σ)}, (∀ w ∈ ws, w.pc ≠ l.gate) →
    entries l (ws ++ c :: rest) = entries l (c :: rest)
  | [], _ => rfl
  | [w], h => by
    rw [singleton_append, entries, if_neg (fun hc => h w (by simp) hc.1)]
  | w :: w' :: ws, h => by
    rw [cons_append, cons_append, entries, if_neg (fun hc => h w (by simp) hc.1), ← cons_append]
    exact entries_skip (fun x hx => h x (by simp only [mem_cons] at hx ⊢; exact .inr hx))

/-! ## One iteration -/

section Iteration

variable {table : List (InstructionFunc σ)} {l : Loop} {c c' : Config σ}

theorem gate_ne_exit (h : c.pc = l.gate) : c.pc ≠ l.exit := by
  rw [Loop.exit, Loop.back]
  omega

/-- A gate that leaves the loop visits nothing more. -/
theorem visits_exit (ht : turn table c = some c') (hg : c.pc = l.gate)
    (he : c'.pc = l.exit) : Visits table l c [] := by
  refine ⟨[c], c', .single ht, he, ?_, ?_⟩
  · intro v hv
    rw [mem_singleton] at hv
    rw [hv]
    exact gate_ne_exit hg
  have ho : c'.pc ≠ l.gate + 1 := by
    rw [he, Loop.exit, Loop.back]
    omega
  rw [singleton_append, entries, if_neg (fun h => ho h.2), entries]
  simp

/-- A loop that cannot take the turn at its gate visits nothing, for it never comes to the exit. -/
theorem not_visits_of_stuck (ht : turn table c = none) (hg : c.pc = l.gate)
    (items : List (List UInt8)) : ¬ Visits table l c items := by
  intro h
  obtain ⟨vs, d, hp, hd, _, _⟩ := h
  cases hp with
  | nil => exact gate_ne_exit hg hd
  | cons hs _ => exact absurd (ht.symm.trans hs) (by simp)

/-- From the gate into the body, through it and back to the gate: the loop visits the item the
body was entered with, and then what it visits from there. -/
theorem visits_round (hg : c.pc = l.gate) (het : turn table c = some c')
    (hc' : c'.pc = l.gate + 1) (hws : Path (turn table) c' ws b)
    (hcl : ∀ w ∈ ws, w.pc ≠ l.gate ∧ w.pc ≠ l.exit) (hb : b.pc = l.back)
    (hbc : turn table b = some d) (items : List (List UInt8)) :
    Visits table l c items ↔
      ∃ more, items = c'.ctx.byteSlots l.valueSlot :: more ∧ Visits table l d more := by
  have hr : Path (turn table) c ([c] ++ (ws ++ [b])) d :=
    (Path.single het).append (hws.append (Path.single hbc))
  have hn : ∀ v ∈ [c] ++ (ws ++ [b]), v.pc ≠ (l.exit : Int) := by
    intro v hv
    simp only [mem_append, mem_singleton] at hv
    rcases hv with hv | hv | hv
    · rw [hv]
      exact gate_ne_exit hg
    · exact (hcl v hv).2
    · rw [hv, Loop.exit]
      omega
  have hs : ∀ w ∈ ws ++ [b], w.pc ≠ (l.gate : Int) := by
    intro w hw
    simp only [mem_append, mem_singleton] at hw
    rcases hw with hw | hw
    · exact (hcl w hw).1
    · rw [hw, hb, Loop.back]
      omega
  -- only the first of the states of the round enters the body
  have hen : ∀ {us : List (Config σ)} {e : Config σ}, Path (turn table) d us e →
      entries l ([c] ++ (ws ++ [b]) ++ us ++ [e])
        = c'.ctx.byteSlots l.valueSlot :: entries l (us ++ [e]) := by
    intro us e hus
    obtain ⟨rest, hrs⟩ := hus.cons_eq []
    obtain ⟨rest', hrest'⟩ := hws.cons_eq (d :: rest)
    rw [append_assoc, append_assoc, hrs, ← entries_skip hs, append_assoc,
      singleton_append, singleton_append, hrest', entries, if_pos ⟨hg, hc'⟩]
  refine ⟨?_, ?_⟩
  · intro h
    obtain ⟨vs, e, hp, he, hvs, rfl⟩ := h
    obtain ⟨us, rfl, hus⟩ := hr.through (P := fun v => v.pc = (l.exit : Int)) hn hp he
    exact ⟨_, hen hus, us, e, hus, he, fun v hv => hvs v (by simp [hv]), rfl⟩
  intro h
  obtain ⟨more, rfl, us, e, hus, he, hu, rfl⟩ := h
  refine ⟨_, e, hr.append hus, he, ?_, hen hus⟩
  intro v hv
  rcases mem_append.mp hv with hv | hv
  · exact hn v hv
  · exact hu v hv

/-- **One iteration.** A gate that enters the body visits the item it has stored, and then what
the loop visits from the gate again, with the iterator moved on once more. -/
theorem visits_iteration (hc : Compiled forEach table l) (hbody : BodyKeeps table l)
    (hg : c.pc = l.gate)
    (ht : turn table c = some ⟨l.gate + 1, ctx₁, state₁⟩) :
    ∃ ctx₂ state₂, Keeps l (ctx₁.setInt l.iterSlot (ctx₁.intSlots l.iterSlot + 1)) ctx₂ ∧
      ∀ items, Visits table l c items ↔
        ∃ more, items = ctx₁.byteSlots l.valueSlot :: more
          ∧ Visits table l ⟨l.gate, ctx₂, state₂⟩ more := by
  obtain ⟨ws, ctx₂, state₂, hws, hcl, hk⟩ := hbody ctx₁ state₁
  have hb : turn table ⟨l.back, ctx₂, state₂⟩
      = some { pc := l.gate, ctx := ctx₂.setInt l.iterSlot (ctx₂.intSlots l.iterSlot + 1),
               state := { state₂ with pc := l.back } } := by
    rw [turn_eq hc.length hc.back rfl rfl, redirect_of_ne (by unfold stopPlan; omega)]
  refine ⟨ctx₂.setInt l.iterSlot (ctx₂.intSlots l.iterSlot + 1), { state₂ with pc := l.back },
    ⟨hk.source, hk.value, hk.index, ?_⟩,
    visits_round hg ht rfl hws hcl rfl hb⟩
  simp only [Ctx.setInt]
  rw [hk.iter]

end Iteration

/-! ## The gate -/

section Gate

variable {forEach : List UInt8 → Option (List (Nat × Nat))} {table : List (InstructionFunc σ)}
variable {l : Loop} {raw : List UInt8} {elems : List (Nat × Nat)} {ctx : Ctx σ} {i : Nat}

/-- The context stands at iteration `i`, the index in place. -/
structure Ready (l : Loop) (elems : List (Nat × Nat)) (i : Nat) (ctx : Ctx σ) : Prop where
  iter : ctx.intSlots l.iterSlot = i
  index : ctx.byteSlots l.indexSlot = packIndex elems

section

variable (hc : Compiled forEach table l)
include hc

/-- A gate whose action leaves the loop. -/
theorem turn_gate_leave
    (ha : loopGateSlot forEach l.sourceSlot l.valueSlot l.indexSlot l.iterSlot (l.gate + 1)
      l.exit ctx { state with pc := (l.gate : Int) }
        = some ((l.exit : Int), ctx', { state with pc := (l.gate : Int) })) :
    ∃ c', turn table ⟨l.gate, ctx, state⟩ = some c' ∧ c'.pc = l.exit := by
  refine ⟨{ pc := l.exit, ctx := ctx', state := { state with pc := l.gate } }, ?_, rfl⟩
  rw [turn_eq hc.length hc.gate rfl ha, redirect_of_ne (by unfold stopPlan; omega)]

/-- The gate of an empty array: out of the loop. -/
theorem turn_gate_empty (state : ExecutionState)
    (hs : ctx.byteSlots l.sourceSlot = raw) (hi : ctx.intSlots l.iterSlot = 0)
    (hp : forEach raw = some []) :
    ∃ c', turn table ⟨l.gate, ctx, state⟩ = some c' ∧ c'.pc = l.exit := by
  apply turn_gate_leave hc
  unfold loopGateSlot ensureIndex
  dsimp only
  rw [hi, hs, hp]
  exact ite_self _

/-- The gate of an empty text: out of the loop. -/
theorem turn_gate_blank (state : ExecutionState) (hs : ctx.byteSlots l.sourceSlot = []) :
    ∃ c', turn table ⟨l.gate, ctx, state⟩ = some c' ∧ c'.pc = l.exit := by
  apply turn_gate_leave hc
  unfold loopGateSlot
  rw [hs]
  exact if_pos rfl

/-- The gate past the last element, the index in place: out of the loop. -/
theorem turn_gate_done (state : ExecutionState)
    (hr : Ready l elems i ctx) (hp : i ≠ 0) (hi : elems.length ≤ i) :
    ∃ c', turn table ⟨l.gate, ctx, state⟩ = some c' ∧ c'.pc = l.exit := by
  by_cases hrw : ctx.byteSlots l.sourceSlot = []
  · exact turn_gate_blank hc state hrw
  apply turn_gate_leave hc
  unfold loopGateSlot
  dsimp only
  rw [if_neg (by simpa using hrw), hr.iter, ensureIndex, if_neg (by omega)]
  dsimp only
  rw [hr.index, packIndex_length, if_pos (by omega)]

/-- What the gate does at an element, once the index is there. -/
theorem turn_gate_item (state : ExecutionState)
    (hr : ctx.byteSlots l.sourceSlot ≠ []) (hit : ctx.intSlots l.iterSlot = i)
    (he : ensureIndex forEach ctx (ctx.byteSlots l.sourceSlot) l.indexSlot i = some ctx₁)
    (hin : ctx₁.byteSlots l.indexSlot = packIndex elems) (hi : i < elems.length)
    (him : elementAt (ctx.byteSlots l.sourceSlot) (packIndex elems) i = r) :
    turn table ⟨l.gate, ctx, state⟩ = r.map fun item =>
      { pc := l.gate + 1, ctx := (ctx₁.setSlot l.valueSlot item).setInt l.iterSlot (i + 1),
        state := { state with pc := l.gate } } := by
  have hcn : ¬ (i : Int) ≥ ((packIndex elems).length / 8 : Nat) := by
    rw [packIndex_length]
    omega
  rw [turn_fetch hc.length hc.gate rfl]
  unfold loopGateSlot
  dsimp only
  rw [if_neg (by simpa using hr), hit, he]
  dsimp only
  rw [hin, if_neg hcn, him]
  cases r with
  | none => rfl
  | some item => exact congrArg some (redirect_of_ne (by unfold stopPlan; omega))

/-- The context at the gate after an iteration. -/
theorem ready_step {ctx₁ ctx₂ : Ctx σ} (hi : ctx₁.byteSlots l.indexSlot = packIndex elems)
    (hk : Keeps l (((ctx₁.setSlot l.valueSlot item).setInt l.iterSlot (i + 1)).setInt l.iterSlot
      (((ctx₁.setSlot l.valueSlot item).setInt l.iterSlot (i + 1)).intSlots l.iterSlot + 1)) ctx₂) :
    Ready l elems (i + 2) ctx₂ := by
  refine ⟨?_, ?_⟩
  · rw [hk.iter]
    simp only [Ctx.setInt, if_pos]
    omega
  · rw [hk.index]
    simp only [Ctx.setInt, Ctx.setSlot]
    rw [if_neg hc.indexValue]
    exact hi

end

/-! ## What is visited -/

/-- **However the items are cut, there are half as many as there are places left.** -/
theorem visits_length_le (hc : Compiled forEach table l) (hbody : BodyKeeps table l) (n : Nat)
    {items : List (List UInt8)} (hn : elems.length ≤ n + i) (hp : i ≠ 0) (hr : Ready l elems i ctx)
    (hv : Visits table l ⟨l.gate, ctx, state⟩ items) : 2 * items.length ≤ n + 1 := by
  induction n using Nat.strong_induction_on generalizing i ctx state items with
  | _ n ih =>
  by_cases hi : elems.length ≤ i
  · obtain ⟨c', ht, hex⟩ := turn_gate_done hc state hr hp hi
    rw [visits_unique hv (visits_exit ht rfl hex)]
    simp
  by_cases hrw : ctx.byteSlots l.sourceSlot = []
  · obtain ⟨c', ht, hex⟩ := turn_gate_blank hc state hrw
    rw [visits_unique hv (visits_exit ht rfl hex)]
    simp
  have he : ensureIndex forEach ctx (ctx.byteSlots l.sourceSlot) l.indexSlot i = some ctx := by
    rw [ensureIndex, if_neg (by omega)]
  cases hit : elementAt (ctx.byteSlots l.sourceSlot) (packIndex elems) i with
  | none =>
    have hs := turn_gate_item hc state hrw hr.iter he hr.index (by omega) hit
    exact absurd hv (not_visits_of_stuck hs rfl items)
  | some item =>
  obtain ⟨ctx₂, state₂, hk, hif⟩ := visits_iteration hc hbody rfl
    (turn_gate_item hc state hrw hr.iter he hr.index (by omega) hit)
  obtain ⟨more, rfl, hm⟩ := (hif items).mp hv
  have hl := ih (n - 2) (by omega) (i := i + 2) (by omega) (by omega)
    (ready_step hc hr.index hk) hm
  rw [length_cons]
  omega

/-- The index is there at every element, built now or before. -/
theorem ensureIndex_eq (hp : forEach raw = some elems)
    (hin : i ≠ 0 → ctx.byteSlots l.indexSlot = packIndex elems) (hi : i < elems.length) :
    ∃ ctx₁, ensureIndex forEach ctx raw l.indexSlot i = some ctx₁
      ∧ ctx₁.byteSlots l.indexSlot = packIndex elems
      ∧ ∀ slot ≠ l.indexSlot, ctx₁.byteSlots slot = ctx.byteSlots slot := by
  unfold ensureIndex
  by_cases hz : i = 0
  · cases elems with
    | nil => simp at hi
    | cons e elems =>
      rw [if_pos (by omega), hp]
      refine ⟨_, rfl, by simp [Ctx.setSlot], ?_⟩
      intro slot hs
      exact if_neg hs
  · rw [if_neg (by omega)]
    exact ⟨ctx, rfl, hin hz, fun _ _ => rfl⟩

section

variable (hc : Compiled forEach table l) (hbody : BodyKeeps table l)
include hc hbody

/-- **An iteration over the array.** The loop visits the element of the iteration, and then what
it visits two iterations on. -/
theorem visits_element
    (hp : forEach raw = some elems) (hr : raw ≠ []) (hl : raw.length < 4294967296)
    (state : ExecutionState) (hs : ctx.byteSlots l.sourceSlot = raw)
    (hir : ctx.intSlots l.iterSlot = i)
    (hin : i ≠ 0 → ctx.byteSlots l.indexSlot = packIndex elems) (hi : elems[i]? = some e)
    (hle : e.1 + e.2 ≤ raw.length) :
    ∃ ctx₂ state₂, Ready l elems (i + 2) ctx₂
      ∧ (l.valueSlot ≠ l.sourceSlot → ctx₂.byteSlots l.sourceSlot = raw)
      ∧ ∀ items, Visits table l ⟨l.gate, ctx, state⟩ items ↔
          ∃ more, items = (raw.drop e.1).take e.2 :: more
            ∧ Visits table l ⟨l.gate, ctx₂, state₂⟩ more := by
  have hil := (List.getElem?_eq_some_iff.mp hi).1
  obtain ⟨ctx₁, he, hi1, ho⟩ := ensureIndex_eq (l := l) hp hin hil
  rw [← hs] at hr he
  have ht := turn_gate_item hc state hr hir he hi1 hil (r := some ((raw.drop e.1).take e.2))
    (by rw [hs]; exact elementAt_packIndex hi hle hl)
  obtain ⟨ctx₂, state₂, hk, hif⟩ := visits_iteration hc hbody rfl ht
  refine ⟨ctx₂, state₂, ready_step hc hi1 hk, ?_, ?_⟩
  · intro hne
    rw [hk.source]
    simp only [Ctx.setInt, Ctx.setSlot]
    rw [if_neg hne.symm, ho _ hc.indexSource.symm, hs]
  intro items
  have hit : ((ctx₁.setSlot l.valueSlot ((raw.drop e.1).take e.2)).setInt l.iterSlot
      (i + 1)).byteSlots l.valueSlot = (raw.drop e.1).take e.2 := by
    simp [Ctx.setInt, Ctx.setSlot]
  rw [hif, hit]

/-- **A loop visits every other element**, from any iteration on. -/
theorem visits_everyOther
    (hsl : l.valueSlot ≠ l.sourceSlot) (hp : forEach raw = some elems) (hrw : raw ≠ [])
    (hl : raw.length < 4294967296) {texts : List (List UInt8)}
    (htt : List.Forall₂ (fun e text => e.1 + e.2 ≤ raw.length ∧ (raw.drop e.1).take e.2 = text)
      elems texts)
    (n : Nat) {i : Nat} (hn : texts.length ≤ n + i) (hs : ctx.byteSlots l.sourceSlot = raw)
    (hit : ctx.intSlots l.iterSlot = i)
    (hin : i ≠ 0 → ctx.byteSlots l.indexSlot = packIndex elems) :
    Visits table l ⟨l.gate, ctx, state⟩ (everyOther (texts.drop i)) := by
  have hsm := htt.length_eq
  induction n using Nat.strong_induction_on generalizing i ctx state with
  | _ n ih =>
  by_cases hi : i < elems.length
  · obtain ⟨hle, htx⟩ := (forall₂_iff_get.mp htt).2 i hi (by omega)
    obtain ⟨ctx₂, state₂, hr, hs2, hif⟩ := visits_element hc hbody hp hrw hl
      state hs hit hin (getElem?_eq_getElem hi) hle
    rw [hif]
    refine ⟨everyOther (texts.drop (i + 2)), everyOther_drop ?_,
      ih (n - 2) (by omega) (by omega) (hs2 hsl) hr.iter (fun _ => hr.index)⟩
    rw [getElem?_eq_some_iff]
    exact ⟨by omega, htx.symm⟩
  · rw [drop_eq_nil_of_le (by omega)]
    by_cases hz : i = 0
    · have hnl : elems = [] := length_eq_zero_iff.mp (by omega)
      rw [hnl] at hp
      obtain ⟨c', ht, he⟩ := turn_gate_empty hc state hs (by rw [hit, hz]; rfl) hp
      exact visits_exit ht rfl he
    · obtain ⟨c', ht, he⟩ := turn_gate_done hc state ⟨hit, hin hz⟩ hz (by omega)
      exact visits_exit ht rfl he

/-- **A foreach over an array visits the first, third, fifth element and so on.** -/
theorem foreach_everyOther (hsl : l.valueSlot ≠ l.sourceSlot) (ha : ArrayOf forEach raw texts)
    (hl : raw.length < 4294967296) (hs : ctx.byteSlots l.sourceSlot = raw)
    (hi : ctx.intSlots l.iterSlot = 0) (state : ExecutionState) :
    Visits table l ⟨l.gate, ctx, state⟩ (everyOther texts) := by
  obtain ⟨elems, hp, ht⟩ := ha.elems
  exact visits_everyOther hc hbody hsl hp ha.nonempty hl ht texts.length
    (by omega) hs hi (fun h => absurd rfl h)

end

/-- **A foreach over an array visits its elements, each once and in order, exactly when there
are fewer than two.** -/
theorem foreach_visits_all_iff (hc : Compiled forEach table l) (hbody : BodyKeeps table l)
    {texts : List (List UInt8)} (harray : ArrayOf forEach raw texts)
    (hlen : raw.length < 4294967296)
    (hsource : ctx.byteSlots l.sourceSlot = raw) (hiter : ctx.intSlots l.iterSlot = 0)
    (state : ExecutionState) :
    Visits table l ⟨l.gate, ctx, state⟩ texts ↔ texts.length ≤ 1 := by
  obtain ⟨elems, hp, htx⟩ := harray.elems
  have hs := htx.length_eq
  cases htx with
  | nil =>
    obtain ⟨c', ht, he⟩ := turn_gate_empty hc state hsource hiter hp
    exact iff_of_true (visits_exit ht rfl he) (by simp)
  | @cons e text elems texts hh _ =>
  obtain ⟨ctx₂, state₂, hr, _, hi⟩ := visits_element (i := 0) hc hbody hp
    harray.nonempty hlen state hsource hiter (fun h => absurd rfl h) rfl hh.1
  rw [hi]
  refine ⟨?_, ?_⟩
  · intro h
    obtain ⟨more, hm, hv⟩ := h
    obtain ⟨_, rfl⟩ := cons.inj hm
    -- two iterations on, half of what is left at most is visited
    have hhl := visits_length_le hc hbody (elems.length - 1) (by rw [length_cons]; omega)
      (by omega) hr hv
    rw [length_cons, length_cons] at hs
    rw [length_cons]
    omega
  · intro h
    simp only [length_cons] at h hs
    obtain ⟨c', ht, he⟩ := turn_gate_done hc state₂ hr (by omega) (by rw [length_cons]; omega)
    have hn : texts = [] := length_eq_zero_iff.mp (by omega)
    exact ⟨[], by rw [hn, hh.2], visits_exit ht rfl he⟩

end Gate

/-! ## A loop with an empty body -/

/-- The gate at address 0 and the jump back at 1; the source is in slot 0, the item in 1. -/
def bareLoop : Loop :=
  { gate := 0, size := 0, sourceSlot := 0, valueSlot := 1, indexSlot := 2, iterSlot := 3 }

def bareTable (forEach : List UInt8 → Option (List (Nat × Nat))) : List (InstructionFunc Unit) :=
  [loopGateSlot forEach 0 1 2 3 1 2, loopRepeat 0 3]

def bareCtx (raw : List UInt8) : Ctx Unit :=
  { freshCtx with byteSlots := fun s => if s = 0 then raw else [] }

/-- What the parser finds in the texts `[1]` and `[1,2]`. -/
def bareForEach (raw : List UInt8) : Option (List (Nat × Nat)) :=
  if raw = [91, 49, 93] then some [(1, 1)]
  else if raw = [91, 49, 44, 50, 93] then some [(1, 1), (3, 1)]
  else none

theorem bare_compiled (forEach : List UInt8 → Option (List (Nat × Nat))) :
    Compiled forEach (bareTable forEach) bareLoop :=
  ⟨rfl, rfl, show 2 < 32768 by decide, by decide, by decide⟩

theorem bare_bodyKeeps (forEach : List UInt8 → Option (List (Nat × Nat))) :
    BodyKeeps (bareTable forEach) bareLoop :=
  fun ctx state => ⟨[], ctx, state, .nil _, by simp, rfl, rfl, rfl, rfl⟩

theorem bare_one : ArrayOf bareForEach [91, 49, 93] [[49]] :=
  ⟨by simp, [(1, 1)], rfl, .cons ⟨by decide, rfl⟩ .nil⟩

theorem bare_two : ArrayOf bareForEach [91, 49, 44, 50, 93] [[49], [50]] :=
  ⟨by simp, [(1, 1), (3, 1)], rfl, .cons ⟨by decide, rfl⟩ (.cons ⟨by decide, rfl⟩ .nil)⟩

theorem foreach_visits_one :
    Visits (bareTable bareForEach) bareLoop (start (bareCtx [91, 49, 93]) 0) [[49]] :=
  (foreach_visits_all_iff (bare_compiled bareForEach) (bare_bodyKeeps bareForEach) bare_one
    (by decide) rfl rfl _).mpr (by decide)

/-- Of the array `[1,2]` the loop visits only the first element. -/
theorem foreach_skips_second :
    Visits (bareTable bareForEach) bareLoop (start (bareCtx [91, 49, 44, 50, 93]) 0) [[49]]
      ∧ ¬ Visits (bareTable bareForEach) bareLoop (start (bareCtx [91, 49, 44, 50, 93]) 0)
          [[49], [50]] := by
  have hv := foreach_everyOther (bare_compiled bareForEach) (bare_bodyKeeps bareForEach)
    (by decide) bare_two (by decide) (show (bareCtx [91, 49, 44, 50, 93]).byteSlots 0 = _ from rfl)
    rfl ⟨0, 0⟩
  refine ⟨hv, ?_⟩
  intro h
  exact absurd (visits_unique hv h) (by decide)

end Rah.Flow
