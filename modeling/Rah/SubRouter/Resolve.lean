import Rah.SubRouter.Register

/-!
# Sub-path routing is exact

`resolveSubPath` follows the abstract walk: over an arena that lays out the registered
templates, the loop consumes one segment a turn and stands on the node of the prefix the
walk has reached, with the byte ranges of the parameter segments recorded so far.

From this the routing statement follows. An endpoint is returned only for a template
that matches, with the ranges of its first ten parameters, and a matching template is
served unless a static segment takes precedence over one of its parameters.
-/

namespace Rah.SubRouter

open Rah.Lib List
open Rah.Router (slash)

/-- The segments of a request, with single slashes between them. -/
def joinSegments : List (List UInt8) → List UInt8
  | [] => []
  | [s] => s
  | s :: rest => s ++ slash :: joinSegments rest

/-- A request segment. -/
def ValidSegment (s : List UInt8) : Prop := s ≠ [] ∧ slash ∉ s

/-- What follows the first segment. -/
def afterFirst : List (List UInt8) → List UInt8
  | [] => []
  | s :: rest => slash :: joinSegments (s :: rest)

theorem joinSegments_cons : joinSegments (s :: segs) = s ++ afterFirst segs := by
  cases segs with
  | nil | cons s' rest => simp [joinSegments, afterFirst]

variable {segs : List (List UInt8)}

theorem length_le_joinSegments (h : ∀ s ∈ segs, ValidSegment s) :
    segs.length ≤ (joinSegments segs).length := by
  induction segs with
  | nil => simp
  | cons s segs ih =>
  have hs := length_pos_iff.mpr (h s (by simp)).1
  have := ih (fun x hx => h x (by simp [hx]))
  rw [joinSegments_cons, length_append]
  cases segs with
  | nil => simp; omega
  | cons s' rest =>
    simp only [afterFirst, length_cons] at this ⊢
    omega

theorem getLast?_joinSegments (hne : segs ≠ [])
    (h : ∀ s ∈ segs, ValidSegment s) : (joinSegments segs).getLast? ≠ some slash
      ∧ joinSegments segs ≠ [] := by
  induction segs with
  | nil => exact absurd rfl hne
  | cons s segs ih =>
  have hs := h s (by simp)
  cases segs with
  | nil =>
    refine ⟨?_, hs.1⟩
    intro hl
    exact hs.2 (mem_of_getLast? hl)
  | cons s' rest =>
  obtain ⟨h1, h2⟩ := ih (by simp) (fun x hx => h x (by simp [hx]))
  rw [joinSegments_cons, afterFirst]
  refine ⟨?_, by simp⟩
  rw [getLast?_append_cons, getLast?_cons_of_ne_nil h2]
  exact h1

/-! ## Positions in the request path -/

section Position

variable {relPath : List UInt8} {pos : Nat} {s : List UInt8} {segs : List (List UInt8)}


theorem segmentEnd_eq (hs : ValidSegment s) (h : relPath.drop pos = joinSegments (s :: segs)) :
    segmentEnd relPath pos = pos + s.length := by
  unfold segmentEnd
  rw [h, joinSegments_cons]
  have ha : ∀ b ∈ s, (b != slash) = true := by
    intro b hb
    rw [bne_iff_ne]
    rintro rfl
    exact hs.2 hb
  have hst : (afterFirst segs).takeWhile (· != slash) = [] := by
    cases segs with
    | nil => rfl
    | cons s' rest => simp [afterFirst]
  rw [takeWhile_append_of_pos ha, hst, append_nil]

/-- Behind a segment the next one starts, or the path ends. -/
theorem skipSlash_drop (h : relPath.drop pos = joinSegments (s :: segs)) :
    relPath.drop (skipSlash relPath (pos + s.length)) = joinSegments segs
      ∧ (segs ≠ [] → skipSlash relPath (pos + s.length) = pos + s.length + 1) := by
  rw [joinSegments_cons] at h
  have hd : relPath.drop (pos + s.length) = afterFirst segs := by rw [← drop_drop, h, drop_left]
  have hh : relPath[pos + s.length]? = (afterFirst segs).head? := by
    rw [← hd, head?_drop]
  unfold skipSlash
  cases segs with
  | nil =>
    rw [hh]
    exact ⟨hd, fun hc => absurd rfl hc⟩
  | cons s' rest =>
  rw [hh, if_pos (by simp [afterFirst])]
  refine ⟨?_, fun _ => rfl⟩
  rw [← drop_drop, hd]
  rfl

end Position

theorem paramRanges_nil : paramRanges pos t [] = [] := by
  cases t with
  | nil => rfl
  | cons k t => cases k <;> rfl

/-- Only the position of a following segment matters. -/
theorem paramRanges_congr {pos pos' : Nat} (h : segs ≠ [] → pos = pos') :
    paramRanges pos t segs = paramRanges pos' t segs := by
  cases segs with
  | nil => rw [paramRanges_nil, paramRanges_nil]
  | cons s segs => rw [h (by simp)]

/-! ## The loop -/

/-- The walk's result as the loop returns it. -/
structure Reached (nodes : List (List Key)) (baseLen pos : Nat) (pre : List Key)
    (segs : List (List UInt8)) (params : List (UInt32 × UInt32))
    (r : Option UInt32 × List (UInt32 × UInt32)) : Prop where
  lost : walk nodes pre segs = none → r.1 = none
  found : ∀ t, walk nodes pre segs = some (pre ++ t) →
    (∃ i, r.1 = some i ∧ nodes[i.toNat]? = some (pre ++ t))
      ∧ r.2 = (params ++ paramRanges (baseLen + pos) t segs).take maxParams

/-- A turn that goes on to the node of `k`. -/
theorem Reached.cons {nodes : List (List Key)} {pre : List Key} {k : Key} {pos pos' : Nat}
    (h : Reached nodes baseLen pos' (pre ++ [k]) segs params' r)
    (hw : walk nodes pre (s :: segs) = walk nodes (pre ++ [k]) segs)
    (hp : ∀ t, (params' ++ paramRanges (baseLen + pos') t segs).take maxParams
      = (params ++ paramRanges (baseLen + pos) (k :: t) (s :: segs)).take maxParams) :
    Reached nodes baseLen pos pre (s :: segs) params r := by
  refine ⟨fun hn => h.lost (hw ▸ hn), fun t ht => ?_⟩
  rw [hw] at ht
  obtain ⟨t', ht', _⟩ := walk_matches ht
  obtain rfl : t = k :: t' := by simpa using ht'
  obtain ⟨⟨i, hri, hni⟩, hpr⟩ := h.found t' (by rw [ht]; simp)
  exact ⟨⟨i, hri, by rw [hni]; simp⟩, by rw [hpr, hp]⟩

/-- **The loop follows the walk.** -/
theorem resolveLoop_walk (h : Laid nodes info arena) {relPath : List UInt8} (baseLen : Nat)
    (hi : nodes[idx.toNat]? = some pre) (hsg : ∀ s ∈ segs, ValidSegment s)
    (hpos : relPath.drop pos = joinSegments segs) (hcl : Clear nodes pre segs)
    (hf : segs.length < fuel) (hp : params.length ≤ maxParams) :
    ∃ r, resolveLoop arena relPath baseLen fuel idx pos params = .ok r
      ∧ Reached nodes baseLen pos pre segs params r := by
  induction segs generalizing fuel pos idx params pre with
  | nil =>
    obtain ⟨fuel, rfl⟩ := Nat.exists_eq_add_one_of_ne_zero (Nat.ne_of_gt hf)
    have hend : relPath[pos]? = none := by
      rw [← head?_drop, hpos]
      rfl
    refine ⟨(some idx, params), by rw [resolveLoop, hend], ?_, ?_⟩
    · intro hw
      exact absurd hw (by simp [walk])
    intro t ht
    obtain rfl : t = [] := by simpa [walk] using ht
    rw [paramRanges_nil, append_nil, append_nil, take_of_length_le hp]
    exact ⟨⟨idx, rfl, hi⟩, rfl⟩
  | cons s segs ih =>
    obtain ⟨fuel, rfl⟩ := Nat.exists_eq_add_one_of_ne_zero (Nat.ne_of_gt (Nat.zero_lt_of_lt hf))
    rw [length_cons, Nat.add_lt_add_iff_right] at hf
    have hs := hsg s (by simp)
    have hrs : ∀ x ∈ segs, ValidSegment x := fun x hx => hsg x (by simp [hx])
    obtain ⟨n, hn, hok, _⟩ := h.node_at hi
    obtain ⟨hnt, hnx⟩ := skipSlash_drop hpos
    obtain ⟨hfr, hcl⟩ := hcl
    obtain ⟨char, tail, rfl⟩ := exists_cons_of_ne_nil hs.1
    have hch : relPath[pos]? = some char := by
      rw [← head?_drop, hpos, joinSegments_cons]
      rfl
    rw [resolveLoop, hch, hn]
    dsimp only
    by_cases hin : pre ++ [.seg (char :: tail)] ∈ nodes
    · -- the static child
      rw [if_pos hin] at hcl
      obtain ⟨hne, hat⟩ := h.findChildIdx_static hok hin
      obtain ⟨n', hn', hok', _⟩ := h.node_at hat
      rw [if_pos hne, hn']
      dsimp only
      rw [hok'.length pre _ rfl]
      obtain ⟨r, hr, hrc⟩ := ih hat hrs hnt hcl hf hp
      refine ⟨r, hr, hrc.cons (by rw [walk, if_pos hin]) fun t => ?_⟩
      rw [paramRanges, paramRanges_congr fun hc => ?_]
      rw [hnx hc]
      omega
    · -- no child shares the first byte: the parameter, if there is one
      have hz : n.findChildIdx char = 0 := by
        refine hok.findChildIdx_none fun x hx he => hin ?_
        rw [← hfr x hx he]
        exact mem_statics.mp hx
      rw [if_neg hin] at hcl
      rw [if_neg (by rw [hz]; simp)]
      by_cases hpar : pre ++ [.param] ∈ nodes
      · have hat := hok.paramAt hpar
        rw [if_pos (hok.hasParam.mpr hpar), segmentEnd_eq hs hpos]
        have hw : walk nodes pre ((char :: tail) :: segs) = walk nodes (pre ++ [.param]) segs := by
          rw [walk, if_neg hin, if_pos hpar]
        split
        · have hl : ∀ x, (params ++ [x]).length ≤ maxParams := fun x => by
            rw [length_append, length_singleton]
            omega
          obtain ⟨r, hr, hrc⟩ := ih hat hrs hnt (hcl hpar) hf
            (hl (_, UInt32.ofNat (baseLen + (pos + _))))
          refine ⟨r, hr, hrc.cons hw fun t => ?_⟩
          rw [paramRanges, append_assoc, singleton_append, ← Nat.add_assoc,
            paramRanges_congr fun hc => ?_]
          rw [hnx hc]
          omega
        · -- the array is full: what was recorded stays
          obtain ⟨r, hr, hrc⟩ := ih hat hrs hnt (hcl hpar) hf hp
          refine ⟨r, hr, hrc.cons hw fun t => ?_⟩
          rw [take_append_of_le_length (by omega), take_append_of_le_length (by omega)]
      · rw [if_neg (fun hc => hpar (hok.hasParam.mp hc))]
        refine ⟨(none, params), rfl, fun _ => rfl, ?_⟩
        intro t ht
        rw [walk, if_neg hin, if_neg hpar] at ht
        cases ht

/-! ## The endpoint -/

/-- A request with a method, for the segments below a base path. -/
def request (base : List UInt8) (m : Method) (segs : List (List UInt8)) : Ctx :=
  { method := m.name, path := base ++ slash :: joinSegments segs }

theorem mem_columns_iff {reg : Registration} {m : Method} :
    methodToIdx m.name ∈ reg.columns ↔ reg.Serves m := by
  have ha : ∀ r m : Method, methodToIdx m.name
      ∈ columns (methodStringToIdx r.name) (decide (r.name = Method.any.name))
        ↔ r = .any ∨ r = m := by
    intro r m
    cases r <;> cases m <;> decide
  exact ha reg.method m

/-- What a request is answered. -/
structure Answer (regs : List Registration) (base : List UInt8) (m : Method)
    (segs : List (List UInt8)) (ctx : Ctx) (res : Option Endpoint) : Prop where
  /-- An endpoint comes from a registration that serves the method and matches, with the byte
  ranges of its parameters, as many as there is room for. -/
  sound : ∀ ep, res = some ep → ∃ (j : Nat) (reg : Registration),
      regs[j]? = some reg ∧ ep = reg.endpoint j
    ∧ reg.Serves m ∧ Matches reg.template segs
    ∧ ctx.params = (paramRanges (base.length + 1) reg.template segs).take maxParams
  /-- A registration that matches is served, where no static segment comes before one of its
  parameters. -/
  complete : ∀ reg ∈ regs, reg.Serves m → Matches reg.template segs →
    StaticFirst (nodesOf regs) [] reg.template segs → res ≠ none

section Answer

variable {base : List UInt8} {regs : List Registration} {d : ApiDefinition} {m : Method}
variable {segs : List (List UInt8)}

/-- The checks on the node reached give the endpoint registered for the method, if any. -/
theorem finish_eq (hb : Built base regs d) (har : d.subArena.length ≠ 0) {ctx : Ctx}
    (hm : ctx.method = m.name) {relPath : List UInt8} (hls : relPath.getLast? ≠ some slash)
    {idx : UInt32} {q : List Key} (hi : (nodesOf regs)[idx.toNat]? = some q) :
    ∃ ctx' res, finish d ctx relPath idx = .ok (ctx', res) ∧ ctx'.params = ctx.params
      ∧ (∀ ep, res = some ep → ∃ (j : Nat) (reg : Registration),
      regs[j]? = some reg ∧ ep = reg.endpoint j
          ∧ reg.Serves m ∧ reg.template = q)
      ∧ (res = none → infoOf regs q (methodToIdx m.name) = none) := by
  have hl := hb.laid
  unfold rooted at hl
  rw [if_neg har] at hl
  obtain ⟨n, hn, _, hs⟩ := hl.node_at hi
  have hs := hs (methodToIdx m.name)
  unfold SubRouteNode.served at hs
  unfold finish
  rw [hn, hm]
  dsimp only
  by_cases ha : n.allowedMethods &&& methodBit (methodToIdx m.name) = 0
  · rw [if_pos ha] at hs ⊢
    exact ⟨_, none, rfl, rfl, nofun, fun _ => hs.symm⟩
  rw [if_neg ha] at hs
  obtain ⟨j, reg, hj, he, ht, hcl⟩ := infoOf_eq_some hs.symm
  have hjl := (List.getElem?_eq_some_iff.mp hj).1
  have hcn := hb.count
  have hep : d.endpoints[(n.endpointIdx (methodToIdx m.name)).toNat]? = some (reg.endpoint j) := by
    rw [he, UInt32.toNat_ofNat_of_lt' (show j < 2 ^ 32 by omega), hb.endpoints, getElem?_mapIdx, hj]
    rfl
  rw [if_neg ha, if_neg (fun hc => hls hc.2), hep]
  refine ⟨_, some (reg.endpoint j), rfl, rfl, ?_, nofun⟩
  intro ep hep'
  rw [Option.some.injEq] at hep'
  exact ⟨j, reg, hj, hep'.symm, mem_columns_iff.mp hcl, ht⟩

/-- The walk of a request ends on a registered template that matches and comes first. -/
theorem walk_registered {reg : Registration} (hr : reg ∈ regs)
    (hm : Matches reg.template segs) (hf : StaticFirst (nodesOf regs) [] reg.template segs) :
    walk (nodesOf regs) [] segs = some reg.template := by
  have hin : ∀ ks, ks <+: reg.template → [] ++ ks ∈ nodesOf regs := fun ks hks =>
    mem_nodesOf.mpr (.inr ⟨reg, hr, hks⟩)
  have he := walk_of_staticFirst hm hin hf
  rwa [nil_append] at he

theorem matchedBaseLen_request (hb : Built base regs d) :
    matchedBaseLen d (request base m segs).path = base.length := by
  unfold matchedBaseLen request
  rw [hb.base, if_pos (by simp)]

/-- **Sub-path routing is exact.** For every definition built by registrations that fit the
arena, and every request none of whose segments is taken for another static segment by its
first byte. -/
theorem resolveSubPath_answer (base : List UInt8) (regs : List Registration)
    (hv : ∀ reg ∈ regs, reg.Valid) (hfit : FitsAll regs) (d : ApiDefinition)
    (hbake : bakeAll (bakeDefinition base) regs = .ok d) (m : Method) (segs : List (List UInt8))
    (hne : segs ≠ []) (hsegs : ∀ s ∈ segs, ValidSegment s) (hclear : Clear (nodesOf regs) [] segs) :
    ∃ ctx res, resolveSubPath (request base m segs) d = .ok (ctx, res)
      ∧ Answer regs base m segs ctx res := by
  have hb := built_bakeAll hv hfit hbake
  unfold resolveSubPath
  by_cases ha : d.subArena.length = 0
  · -- nothing is registered
    rw [if_pos ha]
    have hrg : regs = [] := by
      by_contra hc
      exact hb.started hc ha
    subst hrg
    exact ⟨_, none, rfl, nofun, nofun⟩
  · rw [if_neg ha]
    have hl := hb.laid
    unfold rooted at hl
    rw [if_neg ha] at hl
    have hrel : (request base m segs).path.drop base.length = slash :: joinSegments segs := by
      rw [request, drop_left]
    have hfl : segs.length < (slash :: joinSegments segs).length + 1 := by
      have := length_le_joinSegments hsegs
      simp only [length_cons]
      omega
    have hrt : (nodesOf regs)[(0 : UInt32).toNat]? = some [] := hl.root
    obtain ⟨⟨r, params⟩, hr, hrc⟩ := resolveLoop_walk hl base.length hrt hsegs
      (show (slash :: joinSegments segs).drop 1 = joinSegments segs from rfl) hclear hfl
      (show ([] : List (UInt32 × UInt32)).length ≤ maxParams by simp)
    dsimp only
    rw [matchedBaseLen_request hb, hrel, if_pos head?_cons,
      show (request base m segs).params = [] from rfl, hr]
    obtain ⟨hls, hjne⟩ := getLast?_joinSegments hne hsegs
    cases hw : walk (nodesOf regs) [] segs with
    | none =>
      obtain rfl : r = none := hrc.lost hw
      refine ⟨_, none, rfl, nofun, ?_⟩
      intro reg hreg hs hmt hf
      rw [walk_registered hreg hmt hf] at hw
      cases hw
    | some q =>
      obtain ⟨⟨i, hri, hni⟩, hp⟩ := hrc.found q hw
      obtain rfl : r = some i := hri
      obtain ⟨t, rfl, hmt⟩ := walk_matches hw
      have hlast' : (slash :: joinSegments segs).getLast? ≠ some slash := by
        rw [getLast?_cons_of_ne_nil hjne]
        exact hls
      obtain ⟨ctx', res, hfin, hctx, hsn, hn⟩ := finish_eq hb ha
        (show ({ request base m segs with params := params } : Ctx).method = m.name from rfl)
        hlast' hni
      refine ⟨ctx', res, hfin, ?_, ?_⟩
      · intro ep hep
        obtain ⟨j, reg, hj, he, hs, htm⟩ := hsn ep hep
        refine ⟨j, reg, hj, he, hs, by rw [htm]; exact hmt, ?_⟩
        rw [hctx, htm]
        exact hp
      · intro reg hreg hs hm hf hres
        rw [walk_registered hreg hm hf, Option.some.injEq] at hw
        have hfr := hn hres
        rw [← hw] at hfr
        exact infoOf_ne_none hreg (mem_columns_iff.mpr hs) hfr

end Answer

/-- The theorem at work: `GET /users` and `POST /users/{id}`, request `POST /users/7`. -/
theorem resolveSubPath_users : ∃ d, bakeAll (bakeDefinition [47, 98])
        [⟨[47, 117, 115], .get, true, 0, 0⟩, ⟨[47, 117, 115, 47, 123, 105, 125], .post, true, 0, 0⟩]
        = .ok d
      ∧ ∃ ctx res, resolveSubPath (request [47, 98] .post [[117, 115], [55]]) d = .ok (ctx, res)
        ∧ Answer [⟨[47, 117, 115], .get, true, 0, 0⟩,
            ⟨[47, 117, 115, 47, 123, 105, 125], .post, true, 0, 0⟩]
          [47, 98] .post [[117, 115], [55]] ctx res :=
  ⟨_, rfl, resolveSubPath_answer _ _ (by decide) (by decide) _ rfl _ _ (by decide)
    (by simp [ValidSegment, slash]) (by decide)⟩

/-- **A static branch hides a parameter.** With `GET /a/x` and `GET /{id}/y`, the request
`GET /a/y` takes the static `a`, finds no way on, and is not answered though the second
template matches. -/
theorem static_branch_hides_param :
    ¬ ∀ (base : List UInt8) (regs : List Registration), (∀ reg ∈ regs, reg.Valid) →
      ∀ d, bakeAll (bakeDefinition base) regs = .ok d →
      ∀ (m : Method) (segs : List (List UInt8)), segs ≠ [] → (∀ s ∈ segs, ValidSegment s) →
      ∃ ctx res, resolveSubPath (request base m segs) d = .ok (ctx, res)
        ∧ (∀ ep, res = some ep → ∃ (j : Nat) (reg : Registration),
            regs[j]? = some reg ∧ ep = reg.endpoint j ∧ reg.Serves m ∧ Matches reg.template segs
              ∧ ctx.params = paramRanges (base.length + 1) reg.template segs)
        ∧ ∀ reg ∈ regs, reg.Serves m → Matches reg.template segs → res ≠ none := by
  intro ha
  obtain ⟨ctx, res, hrs, _, hc⟩ := ha [47, 98]
    [⟨[47, 97, 47, 120], .get, true, 0, 0⟩, ⟨[47, 123, 105, 125, 47, 121], .get, true, 0, 0⟩]
    (by decide) _ rfl .get [[97], [121]] (by decide) (by simp [ValidSegment, slash])
  have hn : res = none := by
    have hr : (Except.ok (ctx, res) : Except ResolveFault (Ctx × Option Endpoint))
        = .ok (_, none) := hrs.symm.trans rfl
    rw [Except.ok.injEq, Prod.mk.injEq] at hr
    exact hr.2
  refine hc ⟨[47, 123, 105, 125, 47, 121], .get, true, 0, 0⟩ (by simp) (.inr rfl) ?_ hn
  exact List.Forall₂.cons trivial (List.Forall₂.cons rfl List.Forall₂.nil)

end Rah.SubRouter
