import DiscoBSD.Calc.Base64
import Mathlib.Tactic.SplitIfs

/-!
# What base64 accepts

The text without its blanks is read as groups of four characters. **The walk succeeds on exactly the texts that
`Quanta` relates to a byte string**, and that is the byte string it stores.
-/

set_option autoImplicit false

namespace DiscoBSD.Calc

open Lib

/-- The text that the decoder looks at. -/
def strip (text : List UInt8) : List UInt8 := text.filter fun c => !b64Space c

/-- The value of four characters. -/
def quad (a b c d : ℕ) : ℕ := ((a * 64 + b) * 64 + c) * 64 + d

/-- The place of a character in the alphabet. -/
def sextet (c : UInt8) : ℕ := alphabet.idxOf c

/-- Groups of four characters of the alphabet and the bytes they stand for. Only the last group may be padded, and the
low bits of its last character are not looked at. -/
inductive Quanta : List UInt8 → List UInt8 → Prop
  | nil : Quanta [] []
  | group {a b c d : UInt8} {text bytes : List UInt8} (ha : a ∈ alphabet) (hb : b ∈ alphabet) (hc : c ∈ alphabet)
      (hd : d ∈ alphabet) (h : Quanta text bytes) :
      Quanta (a :: b :: c :: d :: text)
        (u8 (quad (sextet a) (sextet b) (sextet c) (sextet d) / 65536) ::
          u8 (quad (sextet a) (sextet b) (sextet c) (sextet d) / 256) ::
          u8 (quad (sextet a) (sextet b) (sextet c) (sextet d)) :: bytes)
  | pad1 {a b c : UInt8} (ha : a ∈ alphabet) (hb : b ∈ alphabet) (hc : c ∈ alphabet) :
      Quanta [a, b, c, chr '=']
        [u8 (quad (sextet a) (sextet b) (sextet c) 0 / 65536), u8 (quad (sextet a) (sextet b) (sextet c) 0 / 256)]
  | pad2 {a b : UInt8} (ha : a ∈ alphabet) (hb : b ∈ alphabet) :
      Quanta [a, b, chr '=', chr '='] [u8 (quad (sextet a) (sextet b) 0 0 / 65536)]

/-! ## Characters -/

theorem mem_alphabet {c : UInt8} : c ∈ alphabet ↔ ∃ i < 64, alphabet.getD i 0 = c := by
  rw [List.mem_iff_getElem]
  constructor
  · rintro ⟨i, hi, rfl⟩
    exact ⟨i, hi, by rw [List.getD_eq_getElem?_getD, List.getElem?_eq_getElem hi]; rfl⟩
  · rintro ⟨i, hi, rfl⟩
    have hlen : i < alphabet.length := hi
    exact ⟨i, hlen, by rw [List.getD_eq_getElem?_getD, List.getElem?_eq_getElem hlen]; rfl⟩

theorem sextet_getD : ∀ i < 64, sextet (alphabet.getD i 0) = i := by decide +kernel

theorem b64Value_getD : ∀ i < 64, b64Value (alphabet.getD i 0) = some i ∧ b64Space (alphabet.getD i 0) = false := by
  decide +kernel

theorem b64Value_some : ∀ c : UInt8, ∀ v ∈ b64Value c, v < 64 ∧ alphabet.getD v 0 = c ∨ c = chr '=' :=
  forall_byte (by decide +kernel)

theorem sextet_lt {c : UInt8} (hc : c ∈ alphabet) : sextet c < 64 := List.idxOf_lt_length_of_mem hc

theorem alphabet_not_space {c : UInt8} (hc : c ∈ alphabet) : b64Space c = false := by
  obtain ⟨i, hi, rfl⟩ := mem_alphabet.mp hc
  exact (b64Value_getD i hi).2

theorem pad_not_mem : chr '=' ∉ alphabet := by decide +kernel

theorem pad_not_space : b64Space (chr '=') = false := by decide

theorem b64Value_eq (c : UInt8) :
    b64Value c = if c ∈ alphabet then some (sextet c) else if c = chr '=' then some 64 else none := by
  by_cases hc : c ∈ alphabet
  · obtain ⟨i, hi, rfl⟩ := mem_alphabet.mp hc
    rw [if_pos hc, sextet_getD i hi]
    exact (b64Value_getD i hi).1
  · rw [if_neg hc]
    by_cases hpad : c = chr '='
    · rw [if_pos hpad, hpad]
      rfl
    · rw [if_neg hpad]
      cases hv : b64Value c with
      | none => rfl
      | some v =>
        rcases b64Value_some c v hv with ⟨hlt, hget⟩ | heq
        · exact absurd (mem_alphabet.mpr ⟨v, hlt, hget⟩) hc
        · exact absurd heq hpad

theorem letter_spec (v : ℕ) : letter v ∈ alphabet ∧ sextet (letter v) = v % 64 := by
  have hmod : v &&& 63 = v % 64 := Nat.and_two_pow_sub_one_eq_mod v 6
  have hlt : v % 64 < 64 := Nat.mod_lt v (by decide)
  rw [letter, hmod]
  exact ⟨mem_alphabet.mpr ⟨_, hlt, rfl⟩, sextet_getD _ hlt⟩

/-! ## The walk -/

section

variable {store : Bool} {c : UInt8} {w : Walk} {text bytes : List UInt8}

theorem b64Walk_strip (text : List UInt8) (w : Walk) : b64Walk store text w = b64Walk store (strip text) w := by
  induction text generalizing w with
  | nil => rfl
  | cons c rest ih =>
    by_cases hspace : b64Space c
    · have hstrip : strip (c :: rest) = strip rest := List.filter_cons_of_neg (by simpa using hspace)
      rw [hstrip, b64Walk, if_pos hspace, ih]
    · have hstrip : strip (c :: rest) = c :: strip rest := List.filter_cons_of_pos (by simpa using hspace)
      have hall : (strip rest).all b64Space = rest.all b64Space := by
        rw [strip, List.all_filter, Bool.eq_iff_iff, List.all_eq_true, List.all_eq_true]
        exact forall₂_congr fun x _ => by cases b64Space x <;> decide
      rw [hstrip, b64Walk, b64Walk, if_neg hspace, if_neg hspace, hall]
      cases b64Char store c w with
      | bad => rfl
      | more w => exact ih w
      | last w => rfl

/-- A character of the alphabet. -/
theorem b64Char_letter (hc : c ∈ alphabet) (hpad : w.pad = 0) (hacc : w.acc < 2 ^ 18) :
    b64Char store c w = b64Close store { w with acc := w.acc * 64 + sextet c, held := w.held + 1 } := by
  have hlt := sextet_lt hc
  have hor : (w.acc <<< 6) % 2 ^ 32 ||| sextet c = w.acc * 64 + sextet c := by
    rw [Nat.mod_eq_of_lt (by rw [Nat.shiftLeft_eq]; omega), ← Nat.shiftLeft_add_eq_or_of_lt (by omega), Nat.shiftLeft_eq]
  rw [b64Char, b64Value_eq, if_pos hc]
  dsimp only
  rw [if_neg (by omega), if_neg (by omega), hor]

theorem b64Char_letter_bad (hc : c ∈ alphabet) (hpad : w.pad ≠ 0) : b64Char store c w = .bad := by
  have hlt := sextet_lt hc
  rw [b64Char, b64Value_eq, if_pos hc]
  dsimp only
  rw [if_neg (by omega), if_pos hpad]

theorem b64Char_pad (hheld : 2 ≤ w.held) (hacc : w.acc < 2 ^ 18) :
    b64Char store (chr '=') w =
      b64Close store { w with pad := w.pad + 1, acc := w.acc * 64, held := w.held + 1 } := by
  rw [b64Char, b64Value_eq, if_neg pad_not_mem, if_pos rfl]
  dsimp only
  rw [if_pos rfl, if_neg (by omega), Nat.shiftLeft_eq, Nat.mod_eq_of_lt (by omega)]

theorem b64Char_pad_bad (hheld : w.held < 2) : b64Char store (chr '=') w = .bad := by
  rw [b64Char, b64Value_eq, if_neg pad_not_mem, if_pos rfl]
  dsimp only
  rw [if_pos rfl, if_pos hheld]

theorem b64Char_other (hc : c ∉ alphabet) (hpad : c ≠ chr '=') : b64Char store c w = .bad := by
  rw [b64Char, b64Value_eq, if_neg hc, if_neg hpad]

theorem b64Close_open (h : w.held ≠ 4) : b64Close store w = .more w := if_neg h

/-- The memory with the bytes of a group. -/
def stored (store : Bool) (out : ℕ → UInt8) (o : ℕ) (bytes : List UInt8) : ℕ → UInt8 :=
  if store then writeAt out o bytes else out

theorem stored_append (out : ℕ → UInt8) (o : ℕ) (xs ys : List UInt8) :
    stored store out o (xs ++ ys) = stored store (stored store out o xs) (o + xs.length) ys := by
  unfold stored
  split
  · exact writeAt_append ..
  · rfl

theorem b64Close_full {acc o : ℕ} {out : ℕ → UInt8} :
    b64Close store ⟨acc, 4, 0, o, out⟩ =
      .more ⟨0, 0, 0, o + 3, stored store out o [u8 (acc / 65536), u8 (acc / 256), u8 acc]⟩ := by
  cases store
  · rfl
  · rw [stored, if_pos rfl, writeAt_cons, writeAt_cons, writeAt_cons, writeAt_nil, b64Close, if_pos rfl]
    dsimp only
    rw [Nat.shiftRight_eq_div_pow, Nat.shiftRight_eq_div_pow]
    rfl

theorem b64Close_pad1 {acc o : ℕ} {out : ℕ → UInt8} :
    b64Close store ⟨acc, 4, 1, o, out⟩ =
      .last ⟨0, 0, 1, o + 2, stored store out o [u8 (acc / 65536), u8 (acc / 256)]⟩ := by
  cases store
  · rfl
  · rw [stored, if_pos rfl, writeAt_cons, writeAt_cons, writeAt_nil, b64Close, if_pos rfl]
    dsimp only
    rw [Nat.shiftRight_eq_div_pow, Nat.shiftRight_eq_div_pow]
    rfl

theorem b64Close_pad2 {acc o : ℕ} {out : ℕ → UInt8} :
    b64Close store ⟨acc, 4, 2, o, out⟩ = .last ⟨0, 0, 2, o + 1, stored store out o [u8 (acc / 65536)]⟩ := by
  cases store
  · rfl
  · rw [stored, if_pos rfl, writeAt_cons, writeAt_nil, b64Close, if_pos rfl]
    dsimp only
    rw [Nat.shiftRight_eq_div_pow]
    rfl

theorem b64Walk_more {w' : Walk} (hspace : b64Space c = false) (h : b64Char store c w = .more w') :
    b64Walk store (c :: text) w = b64Walk store text w' := by
  rw [b64Walk, hspace, h]
  rfl

theorem b64Walk_last {w' : Walk} (hspace : b64Space c = false) (h : b64Char store c w = .last w') :
    b64Walk store [c] w = .ok (w'.out, w'.o) := by
  rw [b64Walk, hspace, h]
  rfl

/-- Up to two characters into a group. -/
theorem b64Walk_letter {acc held o : ℕ} {out : ℕ → UInt8} (hc : c ∈ alphabet) (hheld : held < 3) (hacc : acc < 2 ^ 18) :
    b64Walk store (c :: text) ⟨acc, held, 0, o, out⟩ = b64Walk store text ⟨acc * 64 + sextet c, held + 1, 0, o, out⟩ := by
  refine b64Walk_more (alphabet_not_space hc) ?_
  rw [b64Char_letter hc rfl hacc]
  exact b64Close_open (by simp only [ne_eq]; omega)

/-- A text in order is walked to its end. -/
theorem Quanta.walk (h : Quanta text bytes) (o : ℕ) (out : ℕ → UInt8) :
    b64Walk store text ⟨0, 0, 0, o, out⟩ = .ok (stored store out o bytes, o + bytes.length) := by
  induction h generalizing o out with
  | nil =>
    rw [b64Walk, if_neg (by simp), stored, writeAt_nil, ite_self]
    rfl
  | @group a b c d text bytes ha hb hc hd h ih =>
    have hal := sextet_lt ha
    have hbl := sextet_lt hb
    have hcl := sextet_lt hc
    rw [b64Walk_letter ha (by omega) (by omega), b64Walk_letter hb (by omega) (by omega),
      b64Walk_letter hc (by omega) (by omega), b64Walk_more (alphabet_not_space hd)
        ((b64Char_letter hd rfl (by dsimp only; omega)).trans b64Close_full), ih, Nat.zero_mul, Nat.zero_add]
    refine congrArg Except.ok (Prod.ext (stored_append out o [_, _, _] bytes).symm ?_)
    simp only [List.length_cons]
    omega
  | @pad1 a b c ha hb hc =>
    have hal := sextet_lt ha
    have hbl := sextet_lt hb
    have hcl := sextet_lt hc
    rw [b64Walk_letter ha (by omega) (by omega), b64Walk_letter hb (by omega) (by omega),
      b64Walk_letter hc (by omega) (by omega), b64Walk_last pad_not_space
        ((b64Char_pad (by simp) (by dsimp only; omega)).trans b64Close_pad1), Nat.zero_mul, Nat.zero_add]
    rfl
  | @pad2 a b ha hb =>
    have hal := sextet_lt ha
    have hbl := sextet_lt hb
    rw [b64Walk_letter ha (by omega) (by omega), b64Walk_letter hb (by omega) (by omega),
      b64Walk_more pad_not_space ((b64Char_pad (by simp) (by dsimp only; omega)).trans (b64Close_open (by simp))),
      b64Walk_last pad_not_space ((b64Char_pad (by simp) (by dsimp only; omega)).trans b64Close_pad2), Nat.zero_mul,
      Nat.zero_add]
    rfl

theorem b64Walk_bad (hspace : b64Space c = false) (h : b64Char store c w = .bad) :
    b64Walk store (c :: text) w = .error w.out := by
  rw [b64Walk, hspace, h]
  rfl

/-- After padding nothing but blanks may follow. -/
theorem nil_of_last {w' : Walk} {r : (ℕ → UInt8) × ℕ} (hblank : ∀ x ∈ c :: text, b64Space x = false)
    (hturn : b64Char store c w = .last w') (h : b64Walk store (c :: text) w = .ok r) : text = [] := by
  rw [b64Walk, hblank c (List.mem_cons_self ..), hturn] at h
  cases text with
  | nil => rfl
  | cons x xs =>
    have hx := hblank x (List.mem_cons_of_mem _ (List.mem_cons_self ..))
    rw [List.all_cons, hx] at h
    cases h

/-! A walk that succeeds shows what the next character is. -/

variable {acc held pad o : ℕ} {out : ℕ → UInt8} {r : (ℕ → UInt8) × ℕ}

theorem walk_goes_on (hheld : held ≠ 0) (h : b64Walk store text ⟨acc, held, pad, o, out⟩ = .ok r) :
    ∃ c rest, text = c :: rest := by
  cases text with
  | nil =>
    rw [b64Walk, if_pos hheld] at h
    cases h
  | cons c rest => exact ⟨c, rest, rfl⟩

theorem walk_first (hheld : held < 2) (hacc : acc < 2 ^ 18) (hspace : b64Space c = false)
    (h : b64Walk store (c :: text) ⟨acc, held, 0, o, out⟩ = .ok r) :
    c ∈ alphabet ∧ b64Walk store text ⟨acc * 64 + sextet c, held + 1, 0, o, out⟩ = .ok r := by
  by_cases hc : c ∈ alphabet
  · rw [b64Walk_letter hc (by omega) hacc] at h
    exact ⟨hc, h⟩
  · have hbad : b64Char store c ⟨acc, held, 0, o, out⟩ = .bad := by
      by_cases hpad : c = chr '='
      · rw [hpad]
        exact b64Char_pad_bad hheld
      · exact b64Char_other hc hpad
    rw [b64Walk_bad hspace hbad] at h
    cases h

theorem walk_third (hacc : acc < 2 ^ 12) (hspace : b64Space c = false)
    (h : b64Walk store (c :: text) ⟨acc, 2, 0, o, out⟩ = .ok r) :
    (c ∈ alphabet ∧ b64Walk store text ⟨acc * 64 + sextet c, 3, 0, o, out⟩ = .ok r) ∨
      (c = chr '=' ∧ b64Walk store text ⟨acc * 64, 3, 1, o, out⟩ = .ok r) := by
  by_cases hc : c ∈ alphabet
  · rw [b64Walk_letter hc (by omega) (by omega)] at h
    exact .inl ⟨hc, h⟩
  · by_cases hpad : c = chr '='
    · subst hpad
      rw [b64Walk_more hspace ((b64Char_pad (by simp) (by dsimp only; omega)).trans (b64Close_open (by simp)))] at h
      exact .inr ⟨rfl, h⟩
    · rw [b64Walk_bad hspace (b64Char_other hc hpad)] at h
      cases h

theorem walk_padded (hacc : acc < 2 ^ 18) (hblank : ∀ x ∈ c :: text, b64Space x = false)
    (h : b64Walk store (c :: text) ⟨acc, 3, 1, o, out⟩ = .ok r) : c = chr '=' ∧ text = [] := by
  have hspace := hblank c (List.mem_cons_self ..)
  by_cases hpad : c = chr '='
  · subst hpad
    exact ⟨rfl, nil_of_last hblank ((b64Char_pad (by simp) hacc).trans b64Close_pad2) h⟩
  · have hbad : b64Char store c ⟨acc, 3, 1, o, out⟩ = .bad := by
      by_cases hc : c ∈ alphabet
      · exact b64Char_letter_bad hc (by simp)
      · exact b64Char_other hc hpad
    rw [b64Walk_bad hspace hbad] at h
    cases h

theorem walk_fourth (hacc : acc < 2 ^ 18) (hblank : ∀ x ∈ c :: text, b64Space x = false)
    (h : b64Walk store (c :: text) ⟨acc, 3, 0, o, out⟩ = .ok r) :
    (c ∈ alphabet ∧ ∃ o' out', b64Walk store text ⟨0, 0, 0, o', out'⟩ = .ok r) ∨ (c = chr '=' ∧ text = []) := by
  have hspace := hblank c (List.mem_cons_self ..)
  by_cases hc : c ∈ alphabet
  · rw [b64Walk_more hspace ((b64Char_letter hc rfl hacc).trans b64Close_full)] at h
    exact .inl ⟨hc, _, _, h⟩
  · by_cases hpad : c = chr '='
    · subst hpad
      exact .inr ⟨rfl, nil_of_last hblank ((b64Char_pad (by simp) hacc).trans b64Close_pad1) h⟩
    · rw [b64Walk_bad hspace (b64Char_other hc hpad)] at h
      cases h

/-- Where the walk succeeds the text is in order. The induction is on the number of groups. -/
theorem quanta_of_walk (n : ℕ) (text : List UInt8) (hn : text.length ≤ 4 * n)
    (hblank : ∀ x ∈ text, b64Space x = false) (o : ℕ) (out : ℕ → UInt8)
    (h : b64Walk store text ⟨0, 0, 0, o, out⟩ = .ok r) : ∃ bytes, Quanta text bytes := by
  induction n generalizing text o out with
  | zero =>
    rw [List.eq_nil_of_length_eq_zero (Nat.le_zero.mp hn)]
    exact ⟨[], .nil⟩
  | succ n ih =>
    cases text with
    | nil => exact ⟨[], .nil⟩
    | cons a text =>
      obtain ⟨hblank, hrest⟩ := List.forall_mem_cons.mp hblank
      obtain ⟨ha, h⟩ := walk_first (by omega) (by omega) hblank h
      have hal := sextet_lt ha
      obtain ⟨b, text, rfl⟩ := walk_goes_on (by omega) h
      obtain ⟨hblank, hrest⟩ := List.forall_mem_cons.mp hrest
      obtain ⟨hb, h⟩ := walk_first (by omega) (by omega) hblank h
      have hbl := sextet_lt hb
      obtain ⟨c, text, rfl⟩ := walk_goes_on (by omega) h
      obtain ⟨hthird, htail⟩ := List.forall_mem_cons.mp hrest
      rcases walk_third (by omega) hthird h with ⟨hc, h⟩ | ⟨rfl, hpad⟩
      · have hcl := sextet_lt hc
        obtain ⟨d, text, rfl⟩ := walk_goes_on (by omega) h
        rcases walk_fourth (by omega) htail h with ⟨hd, o', out', h⟩ | ⟨rfl, rfl⟩
        · simp only [List.length_cons] at hn
          obtain ⟨bytes, hbytes⟩ := ih text (by omega) (List.forall_mem_cons.mp htail).2 o' out' h
          exact ⟨_, .group ha hb hc hd hbytes⟩
        · exact ⟨_, .pad1 ha hb hc⟩
      · obtain ⟨d, text, rfl⟩ := walk_goes_on (by omega) hpad
        obtain ⟨rfl, rfl⟩ := walk_padded (by omega) htail hpad
        exact ⟨_, .pad2 ha hb⟩

end

/-! ## Encoding -/

/-- The text of a byte string. -/
def encoded : List UInt8 → List UInt8
  | x :: y :: z :: rest =>
    letter (value3 x y z >>> 18) :: letter (value3 x y z >>> 12) :: letter (value3 x y z >>> 6) ::
      letter (value3 x y z) :: encoded rest
  | [x, y] =>
    [letter ((x.toNat <<< 16 ||| y.toNat <<< 8) >>> 18), letter ((x.toNat <<< 16 ||| y.toNat <<< 8) >>> 12),
      letter ((x.toNat <<< 16 ||| y.toNat <<< 8) >>> 6), chr '=']
  | [x] => [letter (x.toNat <<< 16 >>> 18), letter (x.toNat <<< 16 >>> 12), chr '=', chr '=']
  | [] => []

theorem encoded_length (input : List UInt8) :
    (encoded input).length = (input.length / 3 + if input.length % 3 ≠ 0 then 1 else 0) * 4 := by
  induction input using encoded.induct with
  | case1 x y z rest ih =>
    have hdiv : (rest.length + 1 + 1 + 1) / 3 = rest.length / 3 + 1 := by omega
    have hmod : (rest.length + 1 + 1 + 1) % 3 = rest.length % 3 := by omega
    simp only [encoded, List.length_cons, ih, hdiv, hmod]
    omega
  | case2 x y => simp [encoded]
  | case3 x => simp [encoded]
  | case4 => rfl

theorem two_bytes (x y : UInt8) : x.toNat <<< 16 ||| y.toNat <<< 8 = x.toNat * 65536 + y.toNat * 256 := by
  have hy := y.toNat_lt
  rw [← Nat.shiftLeft_add_eq_or_of_lt (by rw [Nat.shiftLeft_eq]; omega), Nat.shiftLeft_eq, Nat.shiftLeft_eq]

theorem value3_eq (x y z : UInt8) : value3 x y z = x.toNat * 65536 + y.toNat * 256 + z.toNat := by
  have hz := z.toNat_lt
  have hor : x.toNat * 65536 + y.toNat * 256 = (x.toNat * 256 + y.toNat) <<< 8 := by
    rw [Nat.shiftLeft_eq]
    omega
  rw [value3, two_bytes, hor, Nat.shiftLeft_add_eq_or_of_lt hz]

theorem u8_eq {v : ℕ} {x : UInt8} (h : v % 256 = x.toNat) : u8 v = x := by
  apply UInt8.toNat.inj
  rw [← h]
  exact UInt8.toNat_ofNat' ..

/-- The four characters of a value of 24 bits. -/
theorem quad_letters {v : ℕ} (hv : v < 2 ^ 24) :
    quad (sextet (letter (v >>> 18))) (sextet (letter (v >>> 12))) (sextet (letter (v >>> 6))) (sextet (letter v)) = v := by
  simp only [(letter_spec _).2, Nat.shiftRight_eq_div_pow, quad]
  omega

/-- The text of a byte string is in order and stands for it. -/
theorem encoded_quanta (input : List UInt8) : Quanta (encoded input) input := by
  have hmem : ∀ v, letter v ∈ alphabet := fun v => (letter_spec v).1
  induction input using encoded.induct with
  | case1 x y z rest ih =>
    have hx := x.toNat_lt
    have hy := y.toNat_lt
    have hz := z.toNat_lt
    have heq := value3_eq x y z
    have h := Quanta.group (hmem (value3 x y z >>> 18)) (hmem (value3 x y z >>> 12)) (hmem (value3 x y z >>> 6))
      (hmem (value3 x y z)) ih
    rw [quad_letters (by omega), u8_eq (x := x) (by omega), u8_eq (x := y) (by omega), u8_eq (x := z) (by omega)] at h
    exact h
  | case2 x y =>
    have hx := x.toNat_lt
    have hy := y.toNat_lt
    obtain ⟨v, hv⟩ : ∃ v, v = x.toNat <<< 16 ||| y.toNat <<< 8 := ⟨_, rfl⟩
    have heq := hv.trans (two_bytes x y)
    have hzero : sextet (letter v) = 0 := by
      rw [(letter_spec v).2]
      omega
    have hquad := quad_letters (v := v) (by omega)
    have h := Quanta.pad1 (hmem (v >>> 18)) (hmem (v >>> 12)) (hmem (v >>> 6))
    rw [hzero] at hquad
    rw [hquad, u8_eq (x := x) (by omega), u8_eq (x := y) (by omega), hv] at h
    exact h
  | case3 x =>
    have hx := x.toNat_lt
    obtain ⟨v, hv⟩ : ∃ v, v = x.toNat <<< 16 := ⟨_, rfl⟩
    have heq : v = x.toNat * 65536 := hv.trans (Nat.shiftLeft_eq ..)
    have hzero : sextet (letter v) = 0 := by
      rw [(letter_spec v).2]
      omega
    have hzero' : sextet (letter (v >>> 6)) = 0 := by
      rw [(letter_spec _).2, Nat.shiftRight_eq_div_pow]
      omega
    have hquad := quad_letters (v := v) (by omega)
    have h := Quanta.pad2 (hmem (v >>> 18)) (hmem (v >>> 12))
    rw [hzero, hzero'] at hquad
    rw [hquad, u8_eq (x := x) (by omega), hv] at h
    exact h
  | case4 => exact .nil

/-- The groups, with what is written of the bytes that are left over. -/
theorem b64Groups_spec (input : List UInt8) (out : ℕ → UInt8) (o : ℕ) :
    ∃ head rest out', b64Groups input out o = (rest, out', o + head.length) ∧ out' = writeAt out o head ∧
      encoded input = head ++ encoded rest ∧ (rest = [] ∨ (∃ x, rest = [x]) ∨ ∃ x y, rest = [x, y]) := by
  induction input using encoded.induct generalizing out o with
  | case1 x y z rest ih =>
    obtain ⟨head, rest', out', heq, hout, htext, hrest⟩ := ih
      (writeAt out o [letter (value3 x y z >>> 18), letter (value3 x y z >>> 12), letter (value3 x y z >>> 6),
        letter (value3 x y z)]) (o + 4)
    refine ⟨letter (value3 x y z >>> 18) :: letter (value3 x y z >>> 12) :: letter (value3 x y z >>> 6) ::
      letter (value3 x y z) :: head, rest', out', ?_, ?_, ?_, hrest⟩
    · rw [b64Groups, heq, List.length_cons, List.length_cons, List.length_cons, List.length_cons]
      congr 2
      omega
    · rw [hout]
      exact (writeAt_append out o [_, _, _, _] head).symm
    · rw [encoded, htext]
      rfl
  | case2 x y => exact ⟨[], [x, y], out, rfl, (writeAt_nil ..).symm, rfl, .inr (.inr ⟨x, y, rfl⟩)⟩
  | case3 x => exact ⟨[], [x], out, rfl, (writeAt_nil ..).symm, rfl, .inr (.inl ⟨x, rfl⟩)⟩
  | case4 => exact ⟨[], [], out, rfl, (writeAt_nil ..).symm, rfl, .inl rfl⟩

/-- What the caller finds where `bytes` have been written. -/
def Caller.filled (io : Caller) (bytes : List UInt8) : Caller :=
  { io with out := writeAt io.out 0 bytes, written := bytes.length }

theorem calcB64Encode_spec (io : Caller) (input : List UInt8) (cap : ℕ) :
    calcB64Encode io input cap =
      if (io.inNull ∧ input.length ≠ 0) ∨ (io.outNull ∧ cap ≠ 0) ∨ io.writtenNull then (some .arg, io)
      else if (encoded input).length > min cap sizeMax then (some .size, io)
      else (none, io.filled (encoded input)) := by
  rw [calcB64Encode, encoded_length]
  obtain ⟨groups, hgroups⟩ : ∃ groups, groups = input.length / 3 + if input.length % 3 ≠ 0 then 1 else 0 := ⟨_, rfl⟩
  dsimp only
  rw [← hgroups]
  by_cases harg : (io.inNull ∧ input.length ≠ 0) ∨ (io.outNull ∧ cap ≠ 0) ∨ io.writtenNull
  · rw [if_pos harg, if_pos harg]
  · rw [if_neg harg, if_neg harg]
    have hmax : groups > sizeMax / 4 ↔ groups * 4 > sizeMax := by
      have : sizeMax = 4294967295 := rfl
      omega
    by_cases hsize : groups * 4 > min cap sizeMax
    · rw [if_pos hsize]
      by_cases hlarge : groups > sizeMax / 4
      · rw [if_pos hlarge]
      · rw [if_neg hlarge, if_pos (by omega)]
    · rw [if_neg hsize, if_neg (by omega), if_neg (by omega)]
      obtain ⟨head, rest, out', heq, rfl, htext, hrest⟩ := b64Groups_spec input io.out 0
      rw [heq, htext, Nat.zero_add, Caller.filled]
      rcases hrest with rfl | ⟨x, rfl⟩ | ⟨x, y, rfl⟩
      · rw [encoded, List.append_nil]
      · rw [List.length_append, writeAt_append, Nat.zero_add]
        rfl
      · rw [List.length_append, writeAt_append, Nat.zero_add]
        rfl

/-! ## Decoding -/

theorem calcB64Decode_spec (io : Caller) (text : List UInt8) (cap : ℕ) (hargs : ¬((io.inNull ∧ text.length ≠ 0) ∨ io.writtenNull)) :
    (∀ bytes, Quanta (strip text) bytes → calcB64Decode io text cap =
      if bytes.length > cap then (some .size, io)
      else if bytes.length ≠ 0 ∧ io.outNull then (some .arg, io)
      else (none, io.filled bytes)) ∧
      ((¬∃ bytes, Quanta (strip text) bytes) → calcB64Decode io text cap = (some .invalid, io)) := by
  constructor
  · intro bytes hquanta
    have hwalk : ∀ store, b64Walk store text ⟨0, 0, 0, 0, io.out⟩ = .ok (stored store io.out 0 bytes, bytes.length) := by
      intro store
      rw [b64Walk_strip, hquanta.walk, Nat.zero_add]
    rw [calcB64Decode, if_neg hargs, hwalk]
    dsimp only
    split
    · rfl
    · split
      · rfl
      next hnull =>
        rw [hwalk, Caller.filled]
        by_cases hnil : bytes = []
        · rw [hnil, stored, writeAt_nil, ite_self]
        · have hout : io.outNull = false := by
            refine Bool.eq_false_iff.mpr fun h => hnull ⟨?_, h⟩
            exact fun hlen => hnil (List.eq_nil_of_length_eq_zero hlen)
          rw [hout]
          rfl
  · intro hnone
    have hwalk : ∃ m, b64Walk false text ⟨0, 0, 0, 0, io.out⟩ = .error m := by
      cases h : b64Walk false text ⟨0, 0, 0, 0, io.out⟩ with
      | error m => exact ⟨m, rfl⟩
      | ok r =>
        rw [b64Walk_strip] at h
        refine absurd (quanta_of_walk (strip text).length _ (by omega) (fun x hx => ?_) 0 _ h) hnone
        simpa using (List.mem_filter.mp hx).2
    obtain ⟨m, hwalk⟩ := hwalk
    rw [calcB64Decode, if_neg hargs, hwalk]

/-- **Base64 is exact.** A byte string is encoded as `encoded` where the text fits; a text is accepted where it is in
order without its blanks, and gives the bytes that `Quanta` relates to it; a refusal leaves the caller's memory alone;
and the text of a byte string gives it back, whatever blanks are put into it. -/
theorem base64_exact (io : Caller) (input text : List UInt8) (cap : ℕ) :
    (calcB64Encode io input cap =
      if (io.inNull ∧ input.length ≠ 0) ∨ (io.outNull ∧ cap ≠ 0) ∨ io.writtenNull then (some .arg, io)
      else if (encoded input).length > min cap sizeMax then (some .size, io)
      else (none, io.filled (encoded input))) ∧
      if (io.inNull ∧ text.length ≠ 0) ∨ io.writtenNull then calcB64Decode io text cap = (some .arg, io)
      else
        (∀ bytes, Quanta (strip text) bytes → calcB64Decode io text cap =
          if bytes.length > cap then (some .size, io)
          else if bytes.length ≠ 0 ∧ io.outNull then (some .arg, io)
          else (none, io.filled bytes)) ∧
        ((¬∃ bytes, Quanta (strip text) bytes) → calcB64Decode io text cap = (some .invalid, io)) ∧
        (strip text = encoded input → io.outNull = false → input.length ≤ cap →
          calcB64Decode io text cap = (none, io.filled input)) := by
  refine ⟨calcB64Encode_spec io input cap, ?_⟩
  split
  next hargs => exact if_pos hargs
  next hargs =>
    obtain ⟨haccept, hrefuse⟩ := calcB64Decode_spec io text cap hargs
    refine ⟨haccept, hrefuse, fun hstrip hout hcap => ?_⟩
    rw [haccept input (hstrip ▸ encoded_quanta input), if_neg (by omega), hout]
    simp

end DiscoBSD.Calc
