import Rah.SubRouter.Layout

/-!
# Registrations keep the layout

Each step of `BakeSubRouter` is followed through `Laid`: marking a node for a method,
the static and the parameter segment, the loop over the segments of a template, and
finally a whole history of registrations. `Built` is what a definition built by a
fitting history satisfies.
-/

namespace Rah.SubRouter

open Rah.Lib List SubRouteNode Except
open Registration (Valid template)
open Rah.Router (slash)

/-! ## Marking a node for a method -/

variable {m : Fin 5} {n n' n1 n2 n3 : SubRouteNode} {epIdx : UInt32} {regs : List Registration}

theorem or_methodBit_and_eq_zero :
    (a ||| methodBit m) &&& methodBit m' = 0 ↔ a &&& methodBit m' = 0 ∧ m' ≠ m := by
  have hb : ∀ m m' : Fin 5, methodBit m &&& methodBit m' = 0#8 ↔ m' ≠ m := by decide
  rw [BitVec.and_or_distrib_right]
  refine BitVec.or_eq_zero_iff.trans ?_
  rw [hb]
  rfl

/-- `n'` differs from `n` in its method columns only. -/
def SameNode (n n' : SubRouteNode) : Prop :=
  n' = { n with
    allowedMethods := n'.allowedMethods
    strictMethods := n'.strictMethods
    endpointIdx := n'.endpointIdx }

theorem SameNode.nodeOk (h : SameNode n n') (hok : NodeOk nodes pre n) : NodeOk nodes pre n' := by
  rw [h]
  exact { hok with }

theorem SameNode.trans (h : SameNode n1 n2) (h' : SameNode n2 n3) : SameNode n1 n3 := by
  unfold SameNode at *
  rw [h', h]

/-- The columns in `ms` get the endpoint, and the others stay. -/
structure Marked (n n' : SubRouteNode) (epIdx : UInt32) (ms : List (Fin 5)) : Prop where
  same : SameNode n n'
  served : ∀ m, n'.served m = if m ∈ ms then some epIdx else n.served m

theorem setMethod_marked (h : n.setMethod epIdx isStrict m = .ok n') : Marked n n' epIdx [m] := by
  unfold setMethod at h
  by_cases hf : n.allowedMethods &&& methodBit m = 0
  · rw [if_neg (not_not_intro hf), ok.injEq] at h
    subst h
    refine ⟨rfl, ?_⟩
    intro m'
    simp only [served, or_methodBit_and_eq_zero]
    by_cases he : m' = m
    · simp [he]
    · by_cases hz : n.allowedMethods &&& methodBit m' = 0 <;> simp [he, hz]
  · rw [if_pos hf] at h
    cases h

theorem Marked.append (h : Marked n1 n2 epIdx ms) (h' : Marked n2 n3 epIdx ms') :
    Marked n1 n3 epIdx (ms ++ ms') := by
  refine ⟨h.same.trans h'.same, ?_⟩
  intro m
  rw [h'.served m, h.served m]
  by_cases h1 : m ∈ ms <;> by_cases h2 : m ∈ ms' <;> simp [h1, h2]

theorem foldlM_setMethod_marked {ms : List (Fin 5)}
    (h : ms.foldlM (fun node m => node.setMethod epIdx isStrict m) n = ok n') :
    Marked n n' epIdx ms := by
  induction ms generalizing n with
  | nil =>
    obtain rfl := ok.inj h
    exact ⟨rfl, by simp⟩
  | cons m ms ih =>
    rw [foldlM_cons] at h
    cases hm : n.setMethod epIdx isStrict m with
    | error e =>
      rw [hm] at h
      cases h
    | ok n1 =>
      rw [hm] at h
      exact (setMethod_marked hm).append (ih h)

theorem setMethods_marked (h : n.setMethods epIdx methodIdx isAny isStrict = .ok n') :
    Marked n n' epIdx (columns methodIdx isAny) := by
  cases isAny with
  | true => exact foldlM_setMethod_marked h
  | false => exact setMethod_marked h

/-! ## The steps of a registration -/

/-- `info` with the endpoint entered for a prefix. -/
def mark (info : List Key → Fin 5 → Option UInt32) (epIdx : UInt32) (ms : List (Fin 5))
    (q : List Key) : List Key → Fin 5 → Option UInt32 :=
  fun pre m => if pre = q ∧ m ∈ ms then some epIdx else info pre m

/-- The definition changed in its arena only. -/
def SameApi (d d' : ApiDefinition) : Prop := d' = { d with subArena := d'.subArena }

theorem SameApi.trans (h : SameApi d1 d2) (h' : SameApi d2 d3) : SameApi d1 d3 := by
  unfold SameApi at *
  rw [h', h]

section Step

variable {nodes : List (List Key)} {info : List Key → Fin 5 → Option UInt32}
variable {d d' : ApiDefinition} {pre : List Key} {idx next epIdx : UInt32}
variable {methodIdx : Fin 5} {isAny isStrict : Bool}

theorem registerTerminal_laid (h : Laid nodes info d.subArena) (hi : nodes[idx.toNat]? = some pre)
    (hr : registerTerminal d idx epIdx methodIdx isAny isStrict = .ok d') :
    Laid nodes (mark info epIdx (columns methodIdx isAny) pre) d'.subArena ∧ SameApi d d' := by
  unfold registerTerminal at hr
  obtain ⟨n, hn, hok, hs⟩ := h.node_at hi
  have hlt := (List.getElem?_eq_some_iff.mp hn).1
  rw [hn] at hr
  dsimp only at hr
  split at hr
  · cases hr
  rename_i n' hst
  rw [ok.injEq] at hr
  subst hr
  have hm := setMethods_marked hst
  refine ⟨⟨by simp [h.length], h.bound, h.root, h.nodup, h.closed, h.valid, ?_, ?_⟩, rfl⟩
  · intro q hq m
    have hne : q ≠ pre := by
      rintro rfl
      exact hq (mem_of_getElem? hi)
    simp [mark, hne, h.fresh q hq m]
  intro j q nd hj hnd
  by_cases hji : idx.toNat = j
  · subst hji
    rw [hi, Option.some.injEq] at hj
    subst hj
    rw [getElem?_set_self hlt, Option.some.injEq] at hnd
    subst hnd
    refine ⟨hm.same.nodeOk hok, fun m => ?_⟩
    rw [hm.served m, hs m]
    simp [mark]
  · rw [getElem?_set_ne hji] at hnd
    obtain ⟨hok', hserved'⟩ := h.node j q nd hj hnd
    refine ⟨hok', fun m => ?_⟩
    have hne : q ≠ pre := by
      rintro rfl
      exact hji ((getElem?_inj (by rw [← h.length]; exact hlt) h.nodup).mp (hi.trans hj.symm))
    rw [hserved' m]
    simp [mark, hne]

/-- What a step of the segment loop leaves: the node for the prefix so far, and the marks when
it was the last. -/
structure Stepped (nodes : List (List Key)) (info : List Key → Fin 5 → Option UInt32)
    (q : List Key) (isLast : Bool) (epIdx : UInt32) (ms : List (Fin 5))
    (d d' : ApiDefinition) (next : UInt32) : Prop where
  laid : Laid nodes (if isLast then mark info epIdx ms q else info) d'.subArena
  same : SameApi d d'
  here : nodes[next.toNat]? = some q

variable {isLast : Bool}

section

variable (h : Laid nodes info d.subArena) (hi : nodes[idx.toNat]? = some pre)
include h hi

theorem registerLast_stepped
    (hr : registerLast d idx isLast epIdx methodIdx isAny isStrict = .ok (d', next)) :
    Stepped nodes info pre isLast epIdx (columns methodIdx isAny) d d' next := by
  unfold registerLast at hr
  split at hr
  · rename_i hlt
    split at hr
    · cases hr
    rename_i d1 ht
    obtain ⟨rfl, rfl⟩ := hr
    obtain ⟨hl, hs⟩ := registerTerminal_laid h hi ht
    exact ⟨by rwa [if_pos hlt], hs, hi⟩
  · rename_i hlt
    obtain ⟨rfl, rfl⟩ := hr
    exact ⟨by rwa [if_neg hlt], rfl, hi⟩

/-- A new node for a key, then the marks. -/
theorem registerLast_new
    (hn : d.subArena[idx.toNat]? = some n) (hnw : pre ++ [k] ∉ nodes) (hlt : nodes.length < 2 ^ 32)
    (hk : k.Valid) (hln : ∀ s, k = .seg s → len.toNat = s.length)
    (hp : NodeOk (nodes ++ [pre ++ [k]]) pre n') (hsr : ∀ m, n'.served m = n.served m)
    (hr : registerLast { d with subArena := (d.subArena ++ [leafNode len]).set idx.toNat n' }
      (UInt32.ofNat d.subArena.length) isLast epIdx methodIdx isAny isStrict = .ok (d', next)) :
    Stepped (nodes ++ [pre ++ [k]]) info (pre ++ [k]) isLast epIdx (columns methodIdx isAny)
      d d' next := by
  have hl := h.extend hi hn hnw hlt hk hln hp hsr
  have hh : (nodes ++ [pre ++ [k]])[(UInt32.ofNat d.subArena.length).toNat]?
      = some (pre ++ [k]) := by
    rw [h.next_toNat hlt]
    simp
  have hs := registerLast_stepped (d := { d with
    subArena := (d.subArena ++ [leafNode len]).set idx.toNat n' }) hl hh hr
  exact { hs with }

/-- A static segment: its node is found or created. -/
theorem compileStaticSegment_stepped (hk : Key.Valid (.seg seg))
    (hft : FitsKey nodes pre (.seg seg))
    (hr : compileStaticSegment d idx seg isLast epIdx methodIdx isAny isStrict = .ok (d', next)) :
    Stepped (addKey nodes pre (.seg seg)) info (pre ++ [.seg seg]) isLast epIdx
      (columns methodIdx isAny) d d' next := by
  obtain ⟨n, hn, hok, _⟩ := h.node_at hi
  obtain ⟨hl, hnw⟩ := hft
  cases seg with
  | nil => exact absurd rfl hk.1
  | cons char tail =>
  unfold compileStaticSegment at hr
  rw [hn] at hr
  dsimp only at hr
  unfold addKey
  by_cases hin : pre ++ [.seg (char :: tail)] ∈ nodes
  · obtain ⟨hne, hat⟩ := h.findChildIdx_static hok hin
    rw [if_pos hne] at hr
    rw [if_pos hin]
    exact registerLast_stepped h hat hr
  obtain ⟨hb, hf⟩ := hnw hin
  have hz : n.findChildIdx char = 0 := by
    refine hok.findChildIdx_none ?_
    intro x hx
    exact Nat.ne_of_lt (hf.below hok _ (mem_map_of_mem hx)).1
  rw [if_neg (by rw [hz]; simp)] at hr
  rw [if_neg hin]
  refine registerLast_new h hi hn hin hb hk ?_
    (h.nodeOk_attach hok hf (hk.2 char (by simp)) (h.next_toNat hb))
    (attach_fields _ _ _).2.2.2.2 hr
  intro s hs
  rw [Key.seg.injEq] at hs
  subst hs
  exact UInt16.toNat_ofNat_of_lt' hl

/-- A parameter segment: its node is new. -/
theorem compileParamSegment_stepped (hf : FitsKey nodes pre .param)
    (hr : compileParamSegment d idx seg isLast epIdx methodIdx isAny isStrict = .ok (d', next)) :
    Stepped (addKey nodes pre .param) info (pre ++ [.param]) isLast epIdx
      (columns methodIdx isAny) d d' next := by
  obtain ⟨n, hn, hok, _⟩ := h.node_at hi
  obtain ⟨hnw, hb⟩ := hf
  unfold compileParamSegment at hr
  rw [hn] at hr
  unfold addKey
  rw [if_neg hnw]
  exact registerLast_new h hi hn hnw hb trivial nofun
    (hok.param (h.next_toNat hb)) (fun m => rfl) hr

end

/-- **The loop over the segments.** It walks and extends the table as `addPath` does, and
marks the node of the whole template. -/
theorem bakeSegments_laid {segs : List (List UInt8)} (hne : segs ≠ [])
    (h : Laid nodes info d.subArena) (hi : nodes[idx.toNat]? = some pre)
    (hv : ∀ k ∈ segs.map keyOf, k.Valid) (hf : Fits nodes pre (segs.map keyOf))
    (hb : bakeSegments epIdx methodIdx isAny isStrict d idx segs = .ok d') :
    Laid (addPath nodes pre (segs.map keyOf))
        (mark info epIdx (columns methodIdx isAny) (pre ++ segs.map keyOf)) d'.subArena
      ∧ SameApi d d' := by
  induction segs generalizing nodes d idx pre with
  | nil => exact absurd rfl hne
  | cons seg rest ih =>
  rw [map_cons] at hf
  have hkv := hv (keyOf seg) (by simp)
  rw [bakeSegments] at hb
  split at hb
  · cases hb
  rename_i d1 next hn
  -- both kinds of segment end in a `Stepped`
  have hs : Stepped (addKey nodes pre (keyOf seg)) info (pre ++ [keyOf seg]) rest.isEmpty
      epIdx (columns methodIdx isAny) d d1 next := by
    unfold keyOf at hf hkv ⊢
    by_cases hp : isParam seg = true
    · rw [if_pos hp] at hn hf ⊢
      exact compileParamSegment_stepped h hi hf.1 hn
    · rw [if_neg hp] at hn hf hkv ⊢
      exact compileStaticSegment_stepped h hi hkv hf.1 hn
  cases rest with
  | nil =>
    rw [bakeSegments, ok.injEq] at hb
    subst hb
    exact ⟨hs.laid, hs.same⟩
  | cons seg' rest =>
  obtain ⟨hl, hsm⟩ := ih (by simp) hs.laid hs.here (fun k hk => hv k (mem_cons_of_mem _ hk)) hf.2 hb
  rw [append_assoc] at hl
  exact ⟨hl, hs.same.trans hsm⟩

end Step

/-! ## A history of registrations -/

/-- The columns a registration marks. -/
def Registration.columns (reg : Registration) : List (Fin 5) :=
  SubRouter.columns (methodStringToIdx reg.method.name) (reg.method.name = Method.any.name)

/-- The endpoint of the `j`-th registration. -/
def Registration.endpoint (reg : Registration) (j : Nat) : Endpoint :=
  { endpointId := UInt8.ofNat j
    apiRateLimitId := reg.apiRateLimitId
    endpointRateLimitId := reg.endpointRateLimitId }

/-- What the method columns hold after a history. -/
def infoOf (regs : List Registration) : List Key → Fin 5 → Option UInt32 :=
  regs.zipIdx.foldl (fun info r => mark info (UInt32.ofNat r.2) r.1.columns r.1.template)
    (fun _ _ => none)

theorem infoOf_snoc : infoOf (regs ++ [reg])
      = mark (infoOf regs) (UInt32.ofNat regs.length) reg.columns reg.template := by
  unfold infoOf
  rw [zipIdx_append]
  simp

/-- An entry comes from a registration for its prefix and column. -/
theorem infoOf_eq_some (h : infoOf regs q m = some e) :
    ∃ j reg, regs[j]? = some reg ∧ e = UInt32.ofNat j ∧ reg.template = q ∧ m ∈ reg.columns := by
  induction regs using reverseRecOn with
  | nil => exact absurd h (by simp [infoOf])
  | append_singleton regs reg ih =>
  rw [infoOf_snoc, mark] at h
  split at h
  · rename_i hc
    rw [Option.some.injEq] at h
    exact ⟨regs.length, reg, by simp, h.symm, hc.1.symm, hc.2⟩
  obtain ⟨j, r, hj, rest⟩ := ih h
  exact ⟨j, r, getElem?_snoc hj, rest⟩

/-- A registration leaves an entry. -/
theorem infoOf_ne_none (hr : reg ∈ regs) (hm : m ∈ reg.columns) :
    infoOf regs reg.template m ≠ none := by
  induction regs using reverseRecOn with
  | nil => exact absurd hr (by simp)
  | append_singleton regs r ih =>
  rw [infoOf_snoc, mark]
  split
  · simp
  rename_i hc
  rcases mem_append.mp hr with hr | hr
  · exact ih hr
  · rw [mem_singleton] at hr
    subst hr
    exact absurd ⟨rfl, hm⟩ hc

/-- The arena with the root that the first registration adds. -/
def rooted (d : ApiDefinition) : List SubRouteNode :=
  if d.subArena.length = 0 then [{}] else d.subArena

/-- A definition holds a history of registrations. -/
structure Built (base : List UInt8) (regs : List Registration) (d : ApiDefinition) : Prop where
  base : d.baseRawPath = base
  aliases : d.aliasPaths = []
  endpoints : d.endpoints = regs.mapIdx (fun j reg => reg.endpoint j)
  laid : Laid (nodesOf regs) (infoOf regs) (rooted d)
  count : regs.length ≤ 256
  started : regs ≠ [] → d.subArena.length ≠ 0

theorem built_nil (base : List UInt8) : Built base [] (bakeDefinition base) := by
  refine ⟨rfl, rfl, rfl, ?_, by simp, fun h => absurd rfl h⟩
  have hno : ∀ pre k, pre ++ [k] ∉ ([[]] : List (List Key)) := by
    intro pre k h
    simp at h
  refine ⟨rfl, by simp [nodesOf], rfl, by simp [nodesOf], fun pre k h => absurd h (hno pre k),
    fun pre k h => absurd h (hno pre k), fun _ _ _ => rfl, ?_⟩
  intro i pre n hi hn
  have hi' : ([[]] : List (List Key))[i]? = some pre := hi
  have hn' : ([{}] : List SubRouteNode)[i]? = some n := hn
  cases i with
  | succ i => simp at hi'
  | zero =>
  rw [getElem?_cons_zero, Option.some.injEq] at hi' hn'
  subst hi' hn'
  refine ⟨nodeOk_leaf (hno []) (fun q s h => absurd h (by simp)), fun m => ?_⟩
  simp [served, infoOf]

theorem segmentsOf_ne_nil (path : List UInt8) : segmentsOf path ≠ [] := by
  unfold segmentsOf
  split
  · simp
  · exact splitOnP_ne_nil _ _

/-- **A fitting registration.** -/
theorem built_snoc (h : Built base regs d) (hv : reg.Valid)
    (hfit : Fits (nodesOf regs) [] reg.template)
    (hbake : bakeSubRouter d reg.path reg.method.name reg.isStrict reg.apiRateLimitId
      reg.endpointRateLimitId = .ok d') : Built base (regs ++ [reg]) d' := by
  have hlen : d.endpoints.length = regs.length := by
    rw [h.endpoints, length_mapIdx]
  unfold bakeSubRouter at hbake
  split at hbake
  · cases hbake
  rw [hlen] at hbake
  -- the loop, for a bare path and for one with segments
  have hlp : Laid (nodesOf (regs ++ [reg])) (infoOf (regs ++ [reg])) d'.subArena
      ∧ SameApi (openEndpoint d reg.apiRateLimitId reg.endpointRateLimitId) d' := by
    have hr : (nodesOf regs)[(0 : UInt32).toNat]? = some [] := h.laid.root
    rw [nodesOf_snoc, infoOf_snoc]
    unfold template templateOf
    unfold Valid template templateOf at hv
    unfold template templateOf at hfit
    by_cases hb : segmentsOf reg.path = [[]]
    · rw [if_pos hb]
      rw [hb, bakeSegments] at hbake
      simp only [isParam, head?_nil, reduceCtorEq, decide_false, Bool.false_and, if_false,
        compileStaticSegment, isEmpty_nil] at hbake
      split at hbake
      · cases hbake
      rename_i r hreg
      simp only [bakeSegments, ok.injEq] at hbake
      subst hbake
      have hs := registerLast_stepped h.laid hr hreg
      exact ⟨hs.laid, hs.same⟩
    · rw [if_neg hb] at hv hfit ⊢
      exact bakeSegments_laid (segmentsOf_ne_nil _) h.laid hr hv hfit hbake
  obtain ⟨hl, hsm⟩ := hlp
  have hpos : d'.subArena.length ≠ 0 := by
    rw [hl.length]
    have := (List.getElem?_eq_some_iff.mp hl.root).1
    omega
  refine ⟨?_, ?_, ?_, ?_, ?_, fun _ => hpos⟩
  · rw [hsm]
    exact h.base
  · rw [hsm]
    exact h.aliases
  · rw [hsm, mapIdx_concat]
    show d.endpoints ++ _ = _
    rw [hlen, h.endpoints, Registration.endpoint]
  · unfold rooted
    rw [if_neg hpos]
    exact hl
  · rw [length_append, length_singleton]
    omega

/-- **A fitting history.** -/
theorem built_bakeAll (hv : ∀ reg ∈ regs, reg.Valid) (hft : FitsAll regs)
    (hbk : bakeAll (bakeDefinition base) regs = .ok d) : Built base regs d := by
  have hg : ∀ (after before : List Registration) (d0 : ApiDefinition), Built base before d0 →
      regs = before ++ after → FitsFrom (nodesOf before) after → bakeAll d0 after = .ok d →
      Built base regs d := by
    intro after
    induction after with
    | nil =>
      intro before d0 hb hr _ hbk
      rw [bakeAll, ok.injEq] at hbk
      subst hbk
      rw [hr, append_nil]
      exact hb
    | cons reg after ih =>
    intro before d0 hb hr hf hbk
    rw [bakeAll] at hbk
    split at hbk
    · cases hbk
    rename_i d1 hs
    refine ih (before ++ [reg]) d1 ?_ (by simp [hr]) ?_ hbk
    · exact built_snoc hb (hv reg (by rw [hr]; simp)) hf.1 hs
    · rw [nodesOf_snoc]
      exact hf.2
  exact hg regs [] _ (built_nil base) rfl hft hbk

end Rah.SubRouter
