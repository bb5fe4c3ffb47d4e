import Mathlib.Data.Nat.Digits.Lemmas
import Rah.Cache.Manager
import Rah.Lib.Fields

/-!
# Tiny tags

The tag of a short key is the key: `makeTagTiny` packs the tenant, the length and the bytes into one
word, in one layout up to five bytes and in another for six. As a number a tag is a sum of fields
that do not overlap, so that the fields can be read off it. The spare bits repeat the tenant's low
bits. That is why the two corrections are harmless: a tag with spare bit 2 changed is one whose
spare bits contradict its tenant, which no key has.
-/

namespace Rah.Cache

open Rah.Lib

/-! ## The bytes of a key as digits -/

/-- The key as a number, the first byte the lowest digit. -/
def digits (base : Nat) (key : Bytes) : Nat := Nat.ofDigits base (key.map UInt8.toNat)

theorem digits_lt {base : Nat} (hb : 1 < base) {key : Bytes} (hk : ∀ b ∈ key, b.toNat < base) :
    digits base key < base ^ key.length := by
  have h := Nat.ofDigits_lt_base_pow_length (l := key.map UInt8.toNat) hb (by simpa using hk)
  simpa only [digits, List.length_map] using h

theorem digits_inj {base : Nat} (hb : 1 < base) {key key' : Bytes} (hl : key.length = key'.length)
    (hk : ∀ b ∈ key, b.toNat < base) (hk' : ∀ b ∈ key', b.toNat < base)
    (h : digits base key = digits base key') : key = key' := by
  have hm : key.map UInt8.toNat = key'.map UInt8.toNat :=
    Nat.ofDigits_inj_of_len_eq hb (by simpa using hl) (by simpa using hk) (by simpa using hk') h
  exact List.map_injective_iff.2 (fun _ _ => UInt8.toNat_inj.1) hm

/-- **The packed bytes are the digits of the key.** -/
theorem packBytes_toNat {width : Nat} {mask : Word} (hm : mask.toNat = 2 ^ width - 1)
    (key : Bytes) (i : Nat) (hk : ∀ b ∈ key, b.toNat < 2 ^ width)
    (hi : (i + key.length) * width ≤ 64) :
    (packBytes width mask i key).toNat = digits (2 ^ width) key * 2 ^ (i * width) := by
  induction key generalizing i with
  | nil => simp [packBytes, digits]
  | cons b bs ih =>
    have hb : b.toNat < 2 ^ width := hk b (by simp)
    have hlen : (i + 1) * width ≤ 64 :=
      (Nat.mul_le_mul_right width (by simp)).trans hi
    -- the byte ends below the place of the next one
    have hlt : b.toNat * 2 ^ (i * width) < 2 ^ ((i + 1) * width) := by
      rw [Nat.add_one_mul, Nat.pow_add, Nat.mul_comm]
      exact Nat.mul_lt_mul_of_pos_left hb (by positivity)
    have hmod : b.toNat * 2 ^ (i * width) < 2 ^ 64 :=
      hlt.trans_le (Nat.pow_le_pow_right (by norm_num) hlen)
    have hbyte : ((b.toBitVec.setWidth 64 &&& mask) <<< (i * width)).toNat
        = b.toNat * 2 ^ (i * width) := by
      rw [BitVec.toNat_shiftLeft, BitVec.toNat_and, hm, Nat.and_two_pow_sub_one_eq_mod,
        Nat.shiftLeft_eq]
      simp only [BitVec.toNat_setWidth, UInt8.toNat_toBitVec]
      rw [Nat.mod_eq_of_lt (b.toNat_lt.trans (by norm_num)), Nat.mod_eq_of_lt hb,
        Nat.mod_eq_of_lt hmod]
    have hrest := ih (i + 1) (fun b' hb' => hk b' (by simp [hb'])) (by
      simpa [Nat.add_assoc, Nat.add_comm 1] using hi)
    rw [packBytes, BitVec.toNat_or, hbyte, hrest, Nat.or_comm, or_eq_add hlt]
    simp only [digits, List.map_cons, Nat.ofDigits_cons]
    ring

/-! ## The fields of a tag -/

/-- A tag before it is kept off the sentinels. -/
def rawTag (tenantID : BitVec 16) (key : Bytes) : Word :=
  let t := tenantID.setWidth 64
  if key.length = 6 then
    (1#64 <<< 63) ||| (t <<< 47) ||| (packBytes 7 0x7F#64 0 key <<< 5) ||| (t &&& 0x1F#64)
  else
    ((BitVec.ofNat 64 key.length &&& 7#64) <<< 60) ||| (t <<< 44)
      ||| (packBytes 8 0xFF#64 0 key <<< 4) ||| (t &&& 0xF#64)

/-- The keys of the tiny lane: up to five bytes, or six that are ASCII. -/
def Tiny (key : Bytes) : Prop := key.length ≤ 5 ∨ key.length = 6 ∧ ∀ b ∈ key, b < 128

variable {t t' : BitVec 16} {key key' : Bytes}

theorem byte_lt (key : Bytes) : ∀ b ∈ key, b.toNat < 256 := fun b _ => b.toNat_lt

theorem ascii_lt (hk : ∀ b ∈ key, b < 128) : ∀ b ∈ key, b.toNat < 128 :=
  fun b hb => UInt8.lt_iff_toNat_lt.1 (hk b hb)

theorem shiftLeft_toNat {w : Word} {k m : Nat} (hw : w.toNat < 2 ^ m) (hm : m + k ≤ 64) :
    (w <<< k).toNat = w.toNat * 2 ^ k := by
  have hlt : w.toNat * 2 ^ k < 2 ^ (m + k) := by
    rw [Nat.pow_add]
    exact Nat.mul_lt_mul_of_pos_right hw (by positivity)
  rw [BitVec.toNat_shiftLeft, Nat.shiftLeft_eq,
    Nat.mod_eq_of_lt (hlt.trans_le (Nat.pow_le_pow_right (by norm_num) hm))]

/-- Either layout as a number: what stands at the top, the tenant, `j` bits of key and `k` bits of
the tenant again. -/
theorem layout_toNat {top w mask : Word} {j k m : Nat} (htop : top.toNat < 2 ^ m)
    (hw : w.toNat < 2 ^ j) (hmask : mask.toNat = 2 ^ k - 1) (hm : m + (16 + (j + k)) ≤ 64) :
    (top <<< (16 + (j + k)) ||| t.setWidth 64 <<< (j + k) ||| w <<< k
        ||| (t.setWidth 64 &&& mask)).toNat
      = ((top.toNat * 2 ^ 16 + t.toNat) * 2 ^ j + w.toNat) * 2 ^ k + t.toNat % 2 ^ k := by
  have ht : (t.setWidth 64).toNat = t.toNat := by
    rw [BitVec.toNat_setWidth, Nat.mod_eq_of_lt (t.isLt.trans (by norm_num))]
  rw [BitVec.toNat_or, BitVec.toNat_or, BitVec.toNat_or, BitVec.toNat_and, hmask,
    Nat.and_two_pow_sub_one_eq_mod, shiftLeft_toNat htop hm,
    shiftLeft_toNat (ht ▸ t.isLt) (by omega), shiftLeft_toNat hw (by omega), ht,
    Nat.pow_add _ 16, Nat.pow_add _ j]
  -- from the top down, each field stands below what has been added up so far
  rw [← Nat.mul_assoc, ← Nat.mul_assoc, ← Nat.mul_assoc, ← or_mul, ← or_mul, ← or_mul,
    or_eq_add t.isLt, or_eq_add hw, or_eq_add (low_lt _ _)]

/-- Up to five bytes: the length stands at the top. -/
theorem rawTag_exact (t : BitVec 16) (hl : key.length ≤ 5) :
    digits 256 key < 2 ^ 40 ∧ (rawTag t key).toNat
      = ((key.length * 2 ^ 16 + t.toNat) * 2 ^ 40 + digits 256 key) * 2 ^ 4 + t.toNat % 2 ^ 4 := by
  have hd : digits 256 key < 2 ^ 40 :=
    (digits_lt (by norm_num) (byte_lt key)).trans_le
      ((Nat.pow_le_pow_right (by norm_num) hl).trans (by norm_num))
  have hp : (packBytes 8 0xFF#64 0 key).toNat = digits 256 key := by
    simpa using packBytes_toNat (show (0xFF#64).toNat = 2 ^ 8 - 1 from rfl) key 0 (byte_lt key)
      (by omega)
  have hn : (BitVec.ofNat 64 key.length &&& 7#64).toNat = key.length := by
    rw [BitVec.toNat_and, show (7#64).toNat = 2 ^ 3 - 1 from rfl, Nat.and_two_pow_sub_one_eq_mod,
      BitVec.toNat_ofNat]
    omega
  have h := layout_toNat (t := t) (m := 3) (j := 40) (k := 4) (hn.trans_lt (by omega))
    (hp.trans_lt hd) (show (0xF#64).toNat = 2 ^ 4 - 1 from rfl) (by norm_num)
  rw [hn, hp] at h
  exact ⟨hd, by rw [rawTag, if_neg (by omega)]; exact h⟩

/-- Six bytes: a one stands at the top. -/
theorem rawTag_ascii (t : BitVec 16) (hl : key.length = 6) (hk : ∀ b ∈ key, b < 128) :
    digits 128 key < 2 ^ 42 ∧ (rawTag t key).toNat
      = ((1 * 2 ^ 16 + t.toNat) * 2 ^ 42 + digits 128 key) * 2 ^ 5 + t.toNat % 2 ^ 5 := by
  have hd : digits 128 key < 2 ^ 42 := by
    simpa [hl] using digits_lt (by norm_num) (ascii_lt hk)
  have hp : (packBytes 7 0x7F#64 0 key).toNat = digits 128 key := by
    simpa using packBytes_toNat (show (0x7F#64).toNat = 2 ^ 7 - 1 from rfl) key 0 (ascii_lt hk)
      (by omega)
  have h := layout_toNat (t := t) (m := 1) (j := 42) (k := 5) (show (1#64).toNat < 2 ^ 1 by decide)
    (hp.trans_lt hd) (show (0x1F#64).toNat = 2 ^ 5 - 1 from rfl) (by norm_num)
  rw [hp] at h
  exact ⟨hd, by rw [rawTag, if_pos hl]; exact h⟩

/-- The top bit tells the layouts apart. -/
theorem rawTag_lt (hl : key.length ≤ 5) : (rawTag t key).toNat < 2 ^ 63 := by
  obtain ⟨hd, hr⟩ := rawTag_exact t hl
  have hlow := low_lt t.toNat 4
  have ht := t.isLt
  rw [hr]
  generalize t.toNat % 2 ^ 4 = low at hlow
  omega

theorem le_rawTag (hl : key.length = 6) (hk : ∀ b ∈ key, b < 128) :
    2 ^ 63 ≤ (rawTag t key).toNat := by
  rw [(rawTag_ascii t hl hk).2]
  generalize t.toNat % 2 ^ 5 = low
  omega

/-- **The fields can be read off a tag.** -/
theorem rawTag_inj (hk : Tiny key) (hk' : Tiny key') (h : rawTag t key = rawTag t' key') :
    t = t' ∧ key = key' := by
  have hn := congrArg BitVec.toNat h
  rcases hk with hl | ⟨hl, ha⟩ <;> rcases hk' with hl' | ⟨hl', ha'⟩
  · obtain ⟨hd, hr⟩ := rawTag_exact t hl
    obtain ⟨hd', hr'⟩ := rawTag_exact t' hl'
    rw [hr, hr'] at hn
    obtain ⟨hlen, hten, hdig, _⟩ := fields_inj t.isLt t'.isLt hd hd' (low_lt _ _) (low_lt _ _) hn
    exact ⟨BitVec.eq_of_toNat_eq hten, digits_inj (by norm_num) hlen (byte_lt _) (byte_lt _) hdig⟩
  · exact absurd hn (((rawTag_lt hl).trans_le (le_rawTag hl' ha')).ne)
  · exact absurd hn (((rawTag_lt hl').trans_le (le_rawTag hl ha)).ne')
  · obtain ⟨hd, hr⟩ := rawTag_ascii t hl ha
    obtain ⟨hd', hr'⟩ := rawTag_ascii t' hl' ha'
    rw [hr, hr'] at hn
    obtain ⟨_, hten, hdig, _⟩ := fields_inj t.isLt t'.isLt hd hd' (low_lt _ _) (low_lt _ _) hn
    exact ⟨BitVec.eq_of_toNat_eq hten,
      digits_inj (by norm_num) (hl.trans hl'.symm) (ascii_lt ha) (ascii_lt ha') hdig⟩

/-! ## The sentinels -/

/-- The two corrections at the end of `makeTagTiny`. -/
def sanitise (tag : Word) : Word :=
  let tag := if tag = iEmpty then tag ||| 4#64 else tag
  if tag = iTombstone then tag ^^^ 4#64 else tag

theorem makeTagTiny_eq (t : BitVec 16) (key : Bytes) :
    makeTagTiny t key = sanitise (rawTag t key) := rfl

theorem sanitise_eq (tag : Word) :
    sanitise tag = if tag = iEmpty then 4#64
      else if tag = iTombstone then 0xFFFFFFFFFFFFFFFB#64 else tag := by
  unfold sanitise
  by_cases h : tag = iEmpty
  · rw [if_pos h, if_pos h, h]
    rfl
  · rw [if_neg h, if_neg h]
    by_cases h' : tag = iTombstone
    · rw [if_pos h', if_pos h', h']
      rfl
    · rw [if_neg h', if_neg h']

/-- A corrected tag is no key's: its spare bit 2 contradicts its tenant. -/
theorem rawTag_ne_corrected (hk : Tiny key) :
    rawTag t key ≠ 4#64 ∧ rawTag t key ≠ 0xFFFFFFFFFFFFFFFB#64 := by
  rcases hk with hl | ⟨hl, ha⟩
  · obtain ⟨hd, hr⟩ := rawTag_exact t hl
    constructor
    · intro h
      have hn : _ = ((0 * 2 ^ 16 + 0) * 2 ^ 40 + 0) * 2 ^ 4 + 4 :=
        hr.symm.trans (congrArg BitVec.toNat h)
      obtain ⟨_, hten, _, hlow⟩ :=
        fields_inj t.isLt (by norm_num) hd (by norm_num) (low_lt _ _) (by norm_num) hn
      rw [hten] at hlow
      exact absurd hlow (by decide)
    · intro h
      have hlt := rawTag_lt (t := t) hl
      rw [h] at hlt
      exact absurd hlt (by decide)
  · obtain ⟨hd, hr⟩ := rawTag_ascii t hl ha
    constructor
    · intro h
      have hle := le_rawTag (t := t) hl ha
      rw [h] at hle
      exact absurd hle (by decide)
    · intro h
      have hn : _ = ((1 * 2 ^ 16 + 65535) * 2 ^ 42 + (2 ^ 42 - 1)) * 2 ^ 5 + 27 :=
        hr.symm.trans (congrArg BitVec.toNat h)
      obtain ⟨_, hten, _, hlow⟩ :=
        fields_inj t.isLt (by norm_num) hd (by norm_num) (low_lt _ _) (by norm_num) hn
      rw [hten] at hlow
      exact absurd hlow (by decide)

theorem sanitise_inj {raw raw' : Word} (h₁ : raw ≠ 4#64 ∧ raw ≠ 0xFFFFFFFFFFFFFFFB#64)
    (h₂ : raw' ≠ 4#64 ∧ raw' ≠ 0xFFFFFFFFFFFFFFFB#64) (h : sanitise raw = sanitise raw') :
    raw = raw' := by
  rw [sanitise_eq, sanitise_eq] at h
  split_ifs at h <;> simp_all

theorem makeTagTiny_inj (hk : Tiny key) (hk' : Tiny key')
    (h : makeTagTiny t key = makeTagTiny t' key') : t = t' ∧ key = key' := by
  rw [makeTagTiny_eq, makeTagTiny_eq] at h
  exact rawTag_inj hk hk' (sanitise_inj (rawTag_ne_corrected hk) (rawTag_ne_corrected hk') h)

theorem sanitise_ne (raw : Word) : sanitise raw ≠ iEmpty ∧ sanitise raw ≠ iTombstone := by
  rw [sanitise_eq]
  split_ifs with h h'
  · decide
  · decide
  · exact ⟨h, h'⟩

/-- **Tiny tags identify tenant and key.** Two short keys with one tag are the same key of the same
tenant, and no short key has a tag that means an empty or a deleted slot. -/
theorem makeTagTiny_lossless {t₁ t₂ : BitVec 16} {k₁ k₂ : Bytes} (h₁ : Tiny k₁) (h₂ : Tiny k₂) :
    (makeTagTiny t₁ k₁ = makeTagTiny t₂ k₂ → t₁ = t₂ ∧ k₁ = k₂)
      ∧ makeTagTiny t₁ k₁ ≠ iEmpty ∧ makeTagTiny t₁ k₁ ≠ iTombstone := by
  refine ⟨makeTagTiny_inj h₁ h₂, ?_⟩
  rw [makeTagTiny_eq]
  exact sanitise_ne _

/-- The empty key of tenant 0 has the tag of the empty slot before it is corrected, and tenant 4
the one it is corrected to but for its tenant. -/
theorem lossless_empty_key :
    rawTag 0 [] = iEmpty ∧ makeTagTiny 0 [] = 4#64
      ∧ (makeTagTiny 0 [] = makeTagTiny 4 [] → (0 : BitVec 16) = 4 ∧ ([] : Bytes) = [])
      ∧ makeTagTiny 0 [] ≠ iEmpty ∧ makeTagTiny 0 [] ≠ iTombstone :=
  ⟨by decide, by decide, makeTagTiny_lossless (.inl (by decide)) (.inl (by decide))⟩

end Rah.Cache
