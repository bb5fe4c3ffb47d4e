import Mathlib.Data.List.Basic

/-!
# Conversation histories

`append_message` puts a message at the end of a stored history and, with a limit on turns,
calls `trimTurns`. That looks for complete turns from the newest message back and cuts the
history at the oldest turn it keeps. When it finds no complete turn it cuts everything,
the new message too.

A history is the list of messages it decodes to. Contents are valid UTF-8: in any other text the
JSON encoding of the slot would replace the bytes that are not.
-/

namespace Rah.Steps.History

open List

/-- `MessageRole`: the two that make a turn, and any other name. -/
inductive Role where
  | user
  | assistant
  | other (name : String)
  deriving DecidableEq

/-- `CanonicalMessage`, without its content blocks and the id of a tool call. -/
structure Message where
  role : Role
  content : String
  deriving DecidableEq

/-- The loops of `trimTurns` over the messages, newest first; in the inner one an assistant's
message has been found and the user's is looked for. The result is `cutAt`. -/
def scan (maxTurns : Nat) : List Message → (inner : Bool) → (pairs cutAt : Nat) → Nat
  | [], _, _, cutAt => cutAt
  | m :: rest, false, pairs, cutAt => scan maxTurns rest (m.role = .assistant) pairs cutAt
  | m :: rest, true, pairs, cutAt =>
    if m.role = .user then
      scan maxTurns rest false (pairs + 1) (if pairs + 1 ≤ maxTurns then rest.length else cutAt)
    else scan maxTurns rest true pairs cutAt

/-- The messages from the beginning of the oldest turn that is kept. -/
def trimTurns (msgs : List Message) (maxTurns : Nat) : List Message :=
  if maxTurns = 0 ∨ msgs = [] then msgs
  else msgs.drop (scan maxTurns msgs.reverse false 0 msgs.length)

/-- `append_message` on the decoded history. Nothing is done for an empty content. -/
def appendMessage (msgs : List Message) (role : Role) (content : String) (maxTurns : Nat) :
    List Message :=
  if content = "" then msgs
  else if 0 < maxTurns then trimTurns (msgs ++ [⟨role, content⟩]) maxTurns
  else msgs ++ [⟨role, content⟩]

/-- There are that many user's messages, each with an assistant's after it and before the next. -/
def HasTurns (n : Nat) (msgs : List Message) : Prop :=
  (replicate n [Role.user, .assistant]).flatten.Sublist (msgs.map (·.role))

instance (n : Nat) (msgs : List Message) : Decidable (HasTurns n msgs) :=
  inferInstanceAs (Decidable (List.Sublist _ _))

/-! ## Turns from the newest message back -/

/-- The turns that `scan` finds. -/
def turns : List Message → (inner : Bool) → Nat
  | [], _ => 0
  | m :: rest, false => turns rest (m.role = .assistant)
  | m :: rest, true => if m.role = .user then turns rest false + 1 else turns rest true

def backwards (n : Nat) : List Role := (replicate n [Role.assistant, .user]).flatten

/-- A role that is not the next one is passed over. -/
theorem cons_sublist_of_ne {r r' : Role} {l l' : List Role} (h : r' ≠ r) :
    (r :: l).Sublist (r' :: l') ↔ (r :: l).Sublist l' := by
  rw [cons_sublist_cons', or_iff_left fun he => h he.1.symm]

/-- There are that many turns exactly if so many are found. -/
theorem le_turns_iff : ∀ (msgs : List Message) (n : Nat),
    (n ≤ turns msgs false ↔ (backwards n).Sublist (msgs.map (·.role)))
      ∧ (n + 1 ≤ turns msgs true ↔ (.user :: backwards n).Sublist (msgs.map (·.role)))
  | [], n => by cases n <;> simp [turns, backwards]
  | m :: msgs, n => by
    rw [map_cons, turns, turns]
    constructor
    · cases n with
      | zero => simp [backwards]
      | succ n =>
        show _ ↔ (.assistant :: .user :: backwards n).Sublist _
        by_cases hm : m.role = .assistant
        · rw [hm]
          simpa using (le_turns_iff msgs n).2
        · rw [cons_sublist_of_ne hm, decide_eq_false hm]
          exact (le_turns_iff msgs (n + 1)).1
    · by_cases hm : m.role = .user
      · rw [if_pos hm, hm, cons_sublist_cons, Nat.add_le_add_iff_right]
        exact (le_turns_iff msgs n).1
      · rw [if_neg hm, cons_sublist_of_ne hm]
        exact (le_turns_iff msgs n).2

theorem hasTurns_iff : HasTurns n msgs ↔ n ≤ turns msgs.reverse false := by
  rw [(le_turns_iff msgs.reverse n).1, ← reverse_sublist, HasTurns, backwards]
  simp [reverse_flatten]

/-! ## The cut -/

/-- Once the turns are found the cut stays. -/
theorem scan_full : ∀ (msgs : List Message) (inner : Bool) {pairs : Nat}, maxTurns ≤ pairs →
    scan maxTurns msgs inner pairs cutAt = cutAt
  | [], _, _, _ => rfl
  | m :: msgs, false, _, h => scan_full msgs _ h
  | m :: msgs, true, pairs, h => by
    rw [scan]
    split
    · rw [if_neg (by omega)]
      exact scan_full msgs false (by omega)
    · exact scan_full msgs true h

/-- The cut is at a turn if there is one, and the messages from there have no more than are left. -/
theorem scan_cut : ∀ (msgs : List Message) (inner : Bool) {pairs : Nat} (cutAt : Nat),
    pairs < maxTurns →
    (turns msgs inner = 0 ∧ scan maxTurns msgs inner pairs cutAt = cutAt)
      ∨ ∃ kept cut, msgs = kept ++ cut ∧ kept ≠ [] ∧ 0 < turns msgs inner
        ∧ scan maxTurns msgs inner pairs cutAt = cut.length
        ∧ turns kept inner ≤ maxTurns - pairs
  | [], _, _, _, _ => .inl ⟨rfl, rfl⟩
  | m :: msgs, false, pairs, cutAt, h => by
    obtain hn | ⟨kept, cut, rfl, _, hp, hs, hle⟩ := scan_cut msgs (m.role = .assistant) cutAt h
    · exact .inl hn
    · exact .inr ⟨m :: kept, cut, rfl, by simp, hp, hs, hle⟩
  | m :: msgs, true, pairs, cutAt, h => by
    rw [turns, scan]
    split
    · rename_i hm
      rw [if_pos (by omega)]
      refine .inr ?_
      -- this message is the oldest of the turns kept, or there are older ones
      by_cases hf : maxTurns ≤ pairs + 1
      · refine ⟨[m], msgs, rfl, by simp, by omega, scan_full msgs false hf, ?_⟩
        rw [turns, if_pos hm, turns]
        omega
      obtain ⟨_, hs⟩ | ⟨kept, cut, rfl, _, _, hs, hle⟩ :=
        scan_cut msgs false msgs.length (Nat.lt_of_not_le hf)
      · refine ⟨[m], msgs, rfl, by simp, by omega, hs, ?_⟩
        rw [turns, if_pos hm, turns]
        omega
      · refine ⟨m :: kept, cut, rfl, by simp, by omega, hs, ?_⟩
        rw [turns, if_pos hm]
        omega
    · rename_i hm
      obtain hn | ⟨kept, cut, rfl, _, hp, hs, hle⟩ := scan_cut msgs true cutAt h
      · exact .inl hn
      · refine .inr ⟨m :: kept, cut, rfl, by simp, hp, hs, ?_⟩
        rwa [turns, if_neg hm]

/-- What `append_message` is for: the new message is last, the history a part of the old one with
it, from some message on, and the turns are within the limit. -/
def Kept (msgs : List Message) (new : Message) (maxTurns : Nat) (result : List Message) : Prop :=
  result.getLast? = some new ∧ result <:+ msgs ++ [new]
    ∧ (0 < maxTurns → ∀ n, HasTurns n result → n ≤ maxTurns)

/-- **The new message is kept exactly if there is no limit or a complete turn.** -/
theorem appendMessage_kept_iff (msgs : List Message) (role : Role) (content : String)
    (maxTurns : Nat) (hcontent : content ≠ "") :
    Kept msgs ⟨role, content⟩ maxTurns (appendMessage msgs role content maxTurns)
      ↔ maxTurns = 0 ∨ HasTurns 1 (msgs ++ [⟨role, content⟩]) := by
  rw [appendMessage, if_neg hcontent]
  generalize hnw : (⟨role, content⟩ : Message) = new
  split
  · rename_i hm
    rw [trimTurns, if_neg (by simp; omega), or_iff_right (by omega), hasTurns_iff]
    obtain ⟨hnn, hs⟩ | ⟨kept, cut, hsp, hne, hp, hs, hle⟩ :=
      scan_cut (msgs ++ [new]).reverse false (msgs ++ [new]).length hm
    · rw [hs]
      exact iff_of_false (fun h => by simp [Kept] at h) (by omega)
    have hk : (msgs ++ [new]).drop cut.length = kept.reverse := by
      rw [← reverse_reverse (msgs ++ [new]), hsp, reverse_append,
        drop_left' (by simp)]
    rw [hs, hk]
    refine iff_of_true ⟨?_, hk ▸ drop_suffix _ _, fun _ n hn => ?_⟩ hp
    · rw [getLast?_reverse]
      have hh := congrArg head? hsp
      rw [reverse_append] at hh
      cases kept with
      | nil => exact absurd rfl hne
      | cons m kept => exact hh.symm
    · rw [hasTurns_iff, reverse_reverse] at hn
      exact Nat.le_trans hn hle
  · rename_i hm
    refine iff_of_true ⟨by simp, suffix_refl _, fun h => absurd h hm⟩ (.inl (by omega))

/-- A question, its answer and another question, with room for one turn. -/
theorem appendMessage_third : Kept [⟨.user, "a"⟩, ⟨.assistant, "b"⟩] ⟨.user, "c"⟩ 1
      (appendMessage [⟨.user, "a"⟩, ⟨.assistant, "b"⟩] .user "c" 1) :=
  (appendMessage_kept_iff _ _ _ _ (by decide)).mpr (.inr (by decide))

/-- **The first message of a conversation with a limit is lost.** -/
theorem appendMessage_first : appendMessage [] .user "a" 1 = [] := by
  decide

end Rah.Steps.History
