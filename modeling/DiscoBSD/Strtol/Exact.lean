import Mathlib
import DiscoBSD.Strtol.Convert

/-!
# The subject sequence

What the standard says the two functions convert: behind the white space, **the longest initial part of the
expected form**, which is a sign, a prefix of base 16 if there is a digit behind it, and digits. Both
functions find it, and their loop has its exact value as long as that is within the limit.
-/

set_option autoImplicit false

namespace DiscoBSD.Strtol

open Lib

/-! ## The expected form -/

inductive Sign : List UInt8 → Bool → Prop
  | none : Sign [] false
  | plus : Sign [0x2b] false
  | minus : Sign [0x2d] true

/-- A digit of a base. -/
def below (base : Nat) (c : UInt8) : Bool := (digitOf c).any (· < base)

theorem below_iff {base : Nat} {c : UInt8} : below base c = true ↔ ∃ d, digitOf c = some d ∧ d < base := by
  cases hc : digitOf c with
  | none => simp [below, hc]
  | some d => simp [below, hc]

def Digits (base : Nat) (ds : List UInt8) : Prop := ds ≠ [] ∧ ∀ c ∈ ds, below base c = true

/-- The number the digits are. -/
def magnitude (base : Nat) (ds : List UInt8) : Nat := ds.foldl (fun n c => n * base + (digitOf c).getD 0) 0

/-- The forms of an unsigned number that a base expects. Base 0 expects an integer constant. -/
inductive Number : Nat → List UInt8 → Nat → Prop
  | plain {base : Nat} {ds : List UInt8} (hbase : base ≠ 0) (h : Digits base ds) :
      Number base ds (magnitude base ds)
  | hex {base : Nat} {x : UInt8} {ds : List UInt8} (hbase : base = 0 ∨ base = 16)
      (hx : x = 0x78 ∨ x = 0x58) (h : Digits 16 ds) : Number base (0x30 :: x :: ds) (magnitude 16 ds)
  | octal {ds : List UInt8} (hfirst : ds.head? = some 0x30) (h : Digits 8 ds) :
      Number 0 ds (magnitude 8 ds)
  | decimal {ds : List UInt8} (hfirst : ds.head? ≠ some 0x30) (h : Digits 10 ds) :
      Number 0 ds (magnitude 10 ds)

/-- A text of the expected form, with its sign and its magnitude. -/
def Expected (base : Nat) (text : List UInt8) (negative : Bool) (n : Nat) : Prop :=
  ∃ sgn num, text = sgn ++ num ∧ Sign sgn negative ∧ Number base num n

/-- The subject sequence of `rest`. -/
structure Subject (base : Nat) (rest text : List UInt8) (negative : Bool) (n : Nat) : Prop where
  expected : Expected base text negative n
  initial : text <+: rest
  longest : ∀ text' negative' n', Expected base text' negative' n' → text' <+: rest →
    text'.length ≤ text.length

/-- The string behind its white space. -/
def behind (t : List UInt8) : List UInt8 := t.dropWhile isSpace

/-- The results of a conversion, given the values of the type and its limits. -/
inductive Conversion (value : Bool → Nat → Option Int) (limit : Bool → Int) (base : Nat) (t : List UInt8) :
    Result → Prop
  | none (h : ∀ text negative n, text <+: behind t → ¬ Expected base text negative n) :
      Conversion value limit base t ⟨0, 0, none⟩
  | fits {text : List UInt8} {negative : Bool} {n : Nat} {v : Int}
      (h : Subject base (behind t) text negative n) (hv : value negative n = some v) :
      Conversion value limit base t ⟨v, (t.takeWhile isSpace).length + text.length, none⟩
  | range {text : List UInt8} {negative : Bool} {n : Nat} (h : Subject base (behind t) text negative n)
      (hv : value negative n = Option.none) :
      Conversion value limit base t
        ⟨limit negative, (t.takeWhile isSpace).length + text.length, some .erange⟩

/-- A number as a `long` of 32 bits, where it is one. -/
def longValue (negative : Bool) (n : Nat) : Option Int :=
  if negative then if n ≤ 2 ^ 31 then some (-n) else none
  else if n < 2 ^ 31 then some n else none

def longNearest (negative : Bool) : Int := if negative then -2 ^ 31 else 2 ^ 31 - 1

/-- A number as an `unsigned long` of 32 bits, under a minus sign its negation in that type. -/
def ulongValue (negative : Bool) (n : Nat) : Option Int :=
  if n < 2 ^ 32 then some (if negative then (-(n : Int)) % 2 ^ 32 else n) else none

/-! ## The loop -/

theorem magnitude_snoc (base : Nat) (ds : List UInt8) (c : UInt8) :
    magnitude base (ds ++ [c]) = magnitude base ds * base + (digitOf c).getD 0 := by
  simp [magnitude]

/-- What the loop has after the digits it has seen. -/
inductive Holds (limit base : Nat) : List UInt8 → Loop → Prop
  | start : Holds limit base [] ⟨0, 0, none⟩
  | fits {ds : List UInt8} (hne : ds ≠ []) (hle : magnitude base ds ≤ limit) :
      Holds limit base ds ⟨magnitude base ds, 1, none⟩
  | outside {ds : List UInt8} (hne : ds ≠ []) (hlt : limit < magnitude base ds) :
      Holds limit base ds ⟨limit, -1, some .erange⟩

/-- The test of the quotient and the remainder is the test of the limit. -/
theorem cutoff_iff {limit base v d : Nat} (hd : d < base) :
    (limit / base < v ∨ (v = limit / base ∧ limit % base < d)) ↔ limit < v * base + d := by
  have hdiv := Nat.div_add_mod limit base
  have hmod : limit % base < base := Nat.mod_lt _ (by omega)
  rw [Nat.mul_comm] at hdiv
  rcases Nat.lt_trichotomy v (limit / base) with hlt | heq | hgt
  · have hle : (v + 1) * base ≤ limit / base * base := Nat.mul_le_mul_right _ hlt
    rw [Nat.add_mul, Nat.one_mul] at hle
    constructor
    · intro h
      omega
    · intro h
      omega
  · subst heq
    constructor
    · intro h
      omega
    · intro h
      exact .inr ⟨rfl, by omega⟩
  · have hle : (limit / base + 1) * base ≤ v * base := Nat.mul_le_mul_right _ hgt
    rw [Nat.add_mul, Nat.one_mul] at hle
    constructor
    · intro _
      omega
    · intro _
      exact .inl hgt

/-- A digit that is still within the limit. -/
theorem accumulate_of_le {limit base d : Nat} {l : Loop} (hlimit : limit < 2 ^ 32) (hd : d < base)
    (hconv : ¬ l.converted < 0) (hle : l.value * base + d ≤ limit) :
    accumulate limit base l d = .ok ⟨l.value * base + d, 1, l.errno⟩ := by
  have hcut : ¬ (limit / base < l.value ∨ (l.value = limit / base ∧ limit % base < d)) :=
    (cutoff_iff hd).not.mpr (by omega)
  simp only [accumulate]
  rw [if_neg hconv, if_neg hcut, ulong, if_pos (by omega), ok_bind, ulong, if_pos (by omega)]
  rfl

/-- A digit that is not. -/
theorem accumulate_of_lt {limit base d : Nat} {l : Loop} (hd : d < base) (hconv : ¬ l.converted < 0)
    (hlt : limit < l.value * base + d) : accumulate limit base l d = .ok ⟨limit, -1, some .erange⟩ := by
  simp only [accumulate]
  rw [if_neg hconv, if_pos ((cutoff_iff hd).mpr hlt)]

theorem accumulate_holds {limit base d : Nat} {ds : List UInt8} {c : UInt8} {l : Loop}
    (h : Holds limit base ds l) (hlimit : limit < 2 ^ 32) (hc : digitOf c = some d) (hd : d < base) :
    ∃ l', accumulate limit base l d = .ok l' ∧ Holds limit base (ds ++ [c]) l' := by
  have hne : ds ++ [c] ≠ [] := by simp
  have hmag : magnitude base (ds ++ [c]) = magnitude base ds * base + d := by
    rw [magnitude_snoc, hc, Option.getD_some]
  cases h with
  | start =>
    by_cases hle : (0 : Nat) * base + d ≤ limit
    · refine ⟨_, accumulate_of_le hlimit hd (by simp) hle, ?_⟩
      have hmag' : 0 * base + d = magnitude base ([] ++ [c]) := hmag.symm
      dsimp only
      rw [hmag'] at hle ⊢
      exact .fits hne hle
    · refine ⟨_, accumulate_of_lt hd (by simp) (by dsimp only; omega), .outside hne ?_⟩
      rw [hmag]
      exact Nat.lt_of_not_le hle
  | fits _ hfits =>
    by_cases hle : magnitude base ds * base + d ≤ limit
    · refine ⟨_, accumulate_of_le hlimit hd (by simp) hle, ?_⟩
      dsimp only
      rw [← hmag] at hle ⊢
      exact .fits hne hle
    · refine ⟨_, accumulate_of_lt hd (by simp) (by dsimp only; omega), .outside hne ?_⟩
      omega
  | outside _ hlt =>
    -- More digits only make the number larger.
    refine ⟨_, by simp [accumulate], .outside hne ?_⟩
    have hle : magnitude base ds * 1 ≤ magnitude base ds * base := Nat.mul_le_mul_left _ (by omega)
    omega

/-- **The loop reads the longest run of digits.** -/
theorem digits_holds {limit base : Nat} {seen body cursor : List UInt8} {c : UInt8} {l : Loop}
    (hlimit : limit < 2 ^ 32) (h : Holds limit base seen l) (hbody : c :: cursor = body ++ [0]) :
    ∃ l' cursor', digits limit base c cursor l = .ok (l', cursor') ∧
      cursor'.length + (body.takeWhile (below base)).length = body.length ∧
      Holds limit base (seen ++ body.takeWhile (below base)) l' := by
  induction body generalizing seen c cursor l with
  | nil =>
    obtain ⟨rfl, rfl⟩ := List.cons.inj hbody
    refine ⟨l, [], ?_, rfl, by simpa using h⟩
    rw [digits]
    rfl
  | cons b body ih =>
    obtain ⟨rfl, rfl⟩ := List.cons.inj hbody
    rw [digits]
    by_cases hbelow : below base c = true
    · obtain ⟨d, hc, hd⟩ : ∃ d, digitOf c = some d ∧ d < base := below_iff.mp hbelow
      obtain ⟨l₁, hacc, hholds⟩ := accumulate_holds h hlimit hc hd
      obtain ⟨c', cursor', hnext⟩ : ∃ c' cursor', body ++ [0] = c' :: cursor' := by
        cases body with
        | nil => exact ⟨0, [], rfl⟩
        | cons c' body => exact ⟨c', body ++ [0], rfl⟩
      obtain ⟨l', cursor'', hrun, hlen, hend⟩ := ih hholds hnext.symm
      refine ⟨l', cursor'', ?_, ?_, ?_⟩
      · rw [hc]
        dsimp only
        rw [if_neg (by omega), hacc, show body.append [0] = c' :: cursor' from hnext]
        exact hrun
      · rw [List.takeWhile_cons_of_pos hbelow, List.length_cons, List.length_cons]
        omega
      · rw [List.takeWhile_cons_of_pos hbelow]
        simpa using hend
    · refine ⟨l, body ++ [0], ?_, ?_, ?_⟩
      · cases hc : digitOf c with
        | none => rfl
        | some d =>
          have hd : base ≤ d := by simpa [below, hc] using hbelow
          exact if_pos hd
      · simp [List.takeWhile_cons_of_neg hbelow]
      · simpa [List.takeWhile_cons_of_neg hbelow] using h

/-! ## What the digits can be -/

/-- No run of digits is longer than the one the loop reads. -/
theorem length_le_takeWhile {p : UInt8 → Bool} {ds body : List UInt8} (hds : ∀ c ∈ ds, p c = true)
    (h : ds <+: body) : ds.length ≤ (body.takeWhile p).length := by
  induction ds generalizing body with
  | nil => exact Nat.zero_le _
  | cons c ds ih =>
    obtain ⟨tail, rfl⟩ := h
    rw [List.cons_append, List.takeWhile_cons_of_pos (hds c List.mem_cons_self), List.length_cons,
      List.length_cons]
    have hle := ih (fun c' hc' => hds c' (List.mem_cons_of_mem _ hc')) (List.prefix_append ds tail)
    omega

theorem below_mono {b b' : Nat} (hle : b ≤ b') {c : UInt8} (h : below b c = true) : below b' c = true := by
  obtain ⟨d, hc, hd⟩ := below_iff.mp h
  exact below_iff.mpr ⟨d, hc, by omega⟩

/-- The first character of a number is a digit or a letter. -/
theorem Number.head {base n : Nat} {num : List UInt8} (h : Number base num n) :
    ∃ c more, num = c :: more ∧ digitOf c ≠ none := by
  have hdigits : ∀ {b : Nat} {ds : List UInt8}, Digits b ds → ∃ c more, ds = c :: more ∧ digitOf c ≠ none := by
    intro b ds hds
    cases ds with
    | nil => exact absurd rfl hds.1
    | cons c more =>
      obtain ⟨d, hc, _⟩ := below_iff.mp (hds.2 c List.mem_cons_self)
      exact ⟨c, more, rfl, by rw [hc]; exact nofun⟩
  cases h with
  | plain _ h => exact hdigits h
  | @hex _ x ds _ _ _ => exact ⟨0x30, x :: ds, rfl, by decide⟩
  | octal _ h => exact hdigits h
  | decimal _ h => exact hdigits h

theorem isHexDigit_iff {c : UInt8} : isHexDigit c = true ↔ below 16 c = true := by
  rw [below_iff]
  simp only [isHexDigit, digitOf, Bool.or_eq_true, Bool.and_eq_true, decide_eq_true_eq,
    UInt8.le_iff_toNat_le]
  constructor
  · intro h
    split_ifs with h₁ h₂ h₃
    · exact ⟨_, rfl, by simp at *; omega⟩
    · exact ⟨_, rfl, by simp at *; omega⟩
    · exact ⟨_, rfl, by simp at *; omega⟩
    · simp at *
      omega
  · intro h
    obtain ⟨d, hd, hlt⟩ := h
    split_ifs at hd with h₁ h₂ h₃
    · simp at *
      omega
    · simp at *
      omega
    · simp at *
      omega

/-! ## White space, sign and prefix -/

/-- The first read of a text: its first character, or the NUL. -/
def first (text : List UInt8) : Except Fault (UInt8 × List UInt8) := next (text ++ [0])

theorem first_eq (text : List UInt8) :
    ∃ c cursor, first text = .ok (c, cursor) ∧ c :: cursor = text ++ [0] := by
  cases text with
  | nil => exact ⟨0, [], rfl, rfl⟩
  | cons c text => exact ⟨c, text ++ [0], rfl, rfl⟩

theorem skipSpaces_eq (t : List UInt8) : skipSpaces (t ++ [0]) = first (behind t) := by
  induction t with
  | nil => rfl
  | cons c t ih =>
    rw [List.cons_append, skipSpaces]
    by_cases hc : isSpace c = true
    · rw [if_pos hc, ih, behind, behind, List.dropWhile_cons_of_pos hc]
    · rw [if_neg hc, behind, List.dropWhile_cons_of_neg hc]
      rfl

/-- The sign that stands at the front of `rest`, with the text behind it. -/
structure Signed (rest sgn num : List UInt8) (negative : Bool) : Prop where
  text : rest = sgn ++ num
  sign : Sign sgn negative
  only : ∀ {base n : Nat} {sgn' num' : List UInt8} {negative' : Bool}, Sign sgn' negative' →
    Number base num' n → sgn' ++ num' <+: rest → sgn' = sgn ∧ negative' = negative ∧ num' <+: num

/-- Two texts of which one is the start of the other start alike. -/
theorem cons_split {c c' : UInt8} {text rest : List UInt8} (h : c :: text <+: c' :: rest) :
    c = c' ∧ text <+: rest := List.cons_prefix_cons.mp h

theorem signed_of_ne {c : UInt8} {rest : List UInt8} (hminus : c ≠ 0x2d) (hplus : c ≠ 0x2b) :
    Signed (c :: rest) [] (c :: rest) false := by
  refine ⟨rfl, .none, ?_⟩
  intro base n sgn' num' negative' hsign _ hpre
  cases hsign with
  | none => exact ⟨rfl, rfl, hpre⟩
  | plus => exact absurd (cons_split hpre).1.symm hplus
  | minus => exact absurd (cons_split hpre).1.symm hminus

theorem signed_of_sign {c : UInt8} {negative : Bool} (hsign : Sign [c] negative) (rest : List UInt8) :
    Signed (c :: rest) [c] rest negative := by
  refine ⟨rfl, hsign, ?_⟩
  intro base n sgn' num' negative' hsign' hnum hpre
  obtain ⟨c', more, rfl, hc'⟩ := hnum.head
  -- A sign is not the first character of a number.
  have hnone : digitOf c = none := by
    cases hsign with
    | plus => decide
    | minus => decide
  cases hsign' with
  | none =>
    rw [(cons_split hpre).1] at hc'
    exact absurd hnone hc'
  | plus =>
    obtain ⟨rfl, hrest⟩ := cons_split hpre
    cases hsign
    exact ⟨rfl, rfl, hrest⟩
  | minus =>
    obtain ⟨rfl, hrest⟩ := cons_split hpre
    cases hsign
    exact ⟨rfl, rfl, hrest⟩

theorem sign_eq (rest : List UInt8) :
    ∃ sgn num negative, Signed rest sgn num negative ∧
      (first rest >>= fun p => sign p.1 p.2) = (first num).map (negative, ·) := by
  cases rest with
  | nil =>
    refine ⟨[], [], false, ⟨rfl, .none, ?_⟩, rfl⟩
    intro base n sgn' num' negative' hsign hnum hpre
    obtain ⟨c, more, rfl, _⟩ := hnum.head
    exact absurd (List.prefix_nil.mp hpre) (by simp)
  | cons c rest =>
    have hfirst : first (c :: rest) = .ok (c, rest ++ [0]) := rfl
    rw [hfirst, ok_bind]
    by_cases hminus : c = 0x2d
    · subst hminus
      exact ⟨[0x2d], rest, true, signed_of_sign .minus rest, rfl⟩
    · by_cases hplus : c = 0x2b
      · subst hplus
        exact ⟨[0x2b], rest, false, signed_of_sign .plus rest, rfl⟩
      · refine ⟨[], c :: rest, false, signed_of_ne hminus hplus, ?_⟩
        simp only [sign, if_neg hminus, if_neg hplus]
        rfl

/-- The base the digits are read to, and the text in front of them. -/
structure Based (base base' : Nat) (num pre body : List UInt8) : Prop where
  text : num = pre ++ body
  two : 2 ≤ base'
  number : ∀ {ds}, Digits base' ds → ds <+: body → Number base (pre ++ ds) (magnitude base' ds)
  longest : ∀ {num' n}, Number base num' n → num' <+: num →
    num'.length ≤ pre.length + (body.takeWhile (below base')).length
  some : ∀ {num' n}, Number base num' n → num' <+: num → body.takeWhile (below base') ≠ []

/-- A hexadecimal prefix with a digit behind it. -/
def Prefixed (base : Nat) (num : List UInt8) : Prop :=
  (base = 0 ∨ base = 16) ∧ ∃ x d more, num = 0x30 :: x :: d :: more ∧ (x = 0x78 ∨ x = 0x58) ∧
    below 16 d = true

theorem based_prefixed {base : Nat} {x d : UInt8} {more : List UInt8} (hbase : base = 0 ∨ base = 16)
    (hx : x = 0x78 ∨ x = 0x58) (hd : below 16 d = true) :
    Based base 16 (0x30 :: x :: d :: more) [0x30, x] (d :: more) := by
  -- An `x` is a digit of base 36 only.
  have hx16 : below 16 x = false := by
    cases hx with
    | inl h => subst h; decide
    | inr h => subst h; decide
  have hshort : ∀ {b : Nat} {ds : List UInt8}, b ≤ 16 → Digits b ds → ds <+: 0x30 :: x :: d :: more →
      ds.length ≤ 2 := by
    intro b ds hb hds hpre
    match ds with
    | [] => exact Nat.zero_le _
    | [_] => exact Nat.le_succ 1
    | c :: c' :: ds =>
      have hsecond := (cons_split (cons_split hpre).2).1
      have hbelow := below_mono hb (hds.2 c' (by simp))
      rw [hsecond, hx16] at hbelow
      exact absurd hbelow Bool.false_ne_true
  have hne : (d :: more).takeWhile (below 16) ≠ [] := by simp [List.takeWhile_cons_of_pos hd]
  refine ⟨rfl, by decide, fun hds _ => .hex hbase hx hds, ?_, fun _ _ => hne⟩
  intro num' n hnum hpre
  have hle : ∀ {k : Nat}, k ≤ 2 → k ≤ [0x30, x].length + ((d :: more).takeWhile (below 16)).length := by
    intro k hk
    simp only [List.length_cons, List.length_nil]
    omega
  cases hnum with
  | plain hne hds =>
    have hb : base ≤ 16 := by omega
    exact hle (hshort hb hds hpre)
  | hex _ _ hds =>
    have htail := (cons_split (cons_split hpre).2).2
    have hlen := length_le_takeWhile hds.2 htail
    simp only [List.length_cons, List.length_nil]
    omega
  | octal _ hds => exact hle (hshort (by decide) hds hpre)
  | decimal _ hds => exact hle (hshort (by decide) hds hpre)

/-- Without the prefix every number is digits to one base. -/
theorem based_plain {base base' : Nat} {num : List UInt8} (hno : ¬ Prefixed base num) (htwo : 2 ≤ base')
    (hof : base' = if base = 0 then if num.head? = some 0x30 then 8 else 10 else base) :
    Based base base' num [] num := by
  have hdigits : ∀ {num' n}, Number base num' n → num' <+: num → Digits base' num' := by
    intro num' n hnum hpre
    obtain ⟨c, more, hcons, _⟩ := hnum.head
    have hhead : num.head? = num'.head? := by
      obtain ⟨tail, rfl⟩ := hpre
      rw [hcons]
      rfl
    cases hnum with
    | plain hne hds => rwa [hof, if_neg hne]
    | @hex _ x ds hbase hx hds =>
      obtain ⟨tail, rfl⟩ := hpre
      cases ds with
      | nil => exact absurd rfl hds.1
      | cons d ds => exact absurd ⟨hbase, x, d, ds ++ tail, rfl, hx, hds.2 d List.mem_cons_self⟩ hno
    | octal hfirst hds => rwa [hof, if_pos rfl, hhead, if_pos hfirst]
    | decimal hfirst hds => rwa [hof, if_pos rfl, hhead, if_neg hfirst]
  refine ⟨rfl, htwo, ?_, ?_, ?_⟩
  · intro ds hds hpre
    rw [List.nil_append]
    by_cases hzero : base = 0
    · rw [if_pos hzero] at hof
      subst hzero
      have hhead : num.head? = ds.head? := by
        obtain ⟨tail, rfl⟩ := hpre
        cases ds with
        | nil => exact absurd rfl hds.1
        | cons d ds => rfl
      by_cases hfirst : num.head? = some 0x30
      · rw [if_pos hfirst] at hof
        subst hof
        exact .octal (hhead ▸ hfirst) hds
      · rw [if_neg hfirst] at hof
        subst hof
        exact .decimal (hhead ▸ hfirst) hds
    · rw [if_neg hzero] at hof
      subst hof
      exact .plain hzero hds
  · intro num' n hnum hpre
    rw [List.length_nil, Nat.zero_add]
    exact length_le_takeWhile (hdigits hnum hpre).2 hpre
  · intro num' n hnum hpre hnil
    have hds := hdigits hnum hpre
    have hle := length_le_takeWhile hds.2 hpre
    rw [hnil, List.length_nil] at hle
    exact hds.1 (List.length_eq_zero_iff.mp (Nat.le_zero.mp hle))

/-- What stands behind the `0` decides on the prefix. -/
theorem hexFollows_eq (rest : List UInt8) :
    ∃ hex, hexFollows (rest ++ [0]) = .ok hex ∧
      (hex = true ↔ ∃ x d more, rest = x :: d :: more ∧ (x = 0x78 ∨ x = 0x58) ∧ below 16 d = true) := by
  match rest with
  | [] => exact ⟨false, rfl, by simp⟩
  | [x] =>
    refine ⟨false, ?_, by simp⟩
    by_cases hx : x = 0x78 ∨ x = 0x58
    · simp only [hexFollows, peek, List.cons_append, List.nil_append, List.getElem?_cons_zero, ok_bind,
        if_pos hx]
      rfl
    · simp only [hexFollows, peek, List.cons_append, List.getElem?_cons_zero, ok_bind, if_neg hx]
      rfl
  | x :: d :: more =>
    by_cases hx : x = 0x78 ∨ x = 0x58
    · refine ⟨isHexDigit d, ?_, ?_⟩
      · simp only [hexFollows, peek, List.cons_append, List.getElem?_cons_zero, List.getElem?_cons_succ,
          ok_bind, if_pos hx]
        rfl
      · rw [isHexDigit_iff]
        constructor
        · intro hd
          exact ⟨x, d, more, rfl, hx, hd⟩
        · intro h
          obtain ⟨x', d', more', heq, _, hd⟩ := h
          cases heq
          exact hd
    · refine ⟨false, ?_, ?_⟩
      · simp only [hexFollows, peek, List.cons_append, List.getElem?_cons_zero, ok_bind, if_neg hx]
        rfl
      · constructor
        · intro h
          exact absurd h Bool.false_ne_true
        · intro h
          obtain ⟨x', d', more', heq, hx', _⟩ := h
          cases heq
          exact absurd hx' hx

theorem radix_eq {base : Nat} (hbase : base = 0 ∨ 2 ≤ base) (num : List UInt8) :
    ∃ base' pre body, Based base base' num pre body ∧
      (first num >>= fun p => radix base p.1 p.2) = (first body).map (base', ·) := by
  obtain ⟨c, cursor, hfirst, hcons⟩ := first_eq num
  rw [hfirst, ok_bind]
  by_cases hpre : Prefixed base num
  · obtain ⟨h16, x, d, more, rfl, hx, hd⟩ := hpre
    refine ⟨16, [0x30, x], d :: more, based_prefixed h16 hx hd, ?_⟩
    obtain ⟨rfl, rfl⟩ := List.cons.inj hcons
    obtain ⟨hex, hfollows, hiff⟩ := hexFollows_eq (x :: d :: more)
    obtain rfl := hiff.mpr ⟨x, d, more, rfl, hx, hd⟩
    simp only [radix]
    rw [if_pos ⟨h16, trivial⟩]
    exact (congrArg (· >>= _) hfollows).trans rfl
  · have hhead : c = 0x30 ↔ num.head? = some 0x30 := by
      cases num with
      | nil =>
        obtain ⟨rfl, rfl⟩ := List.cons.inj hcons
        decide
      | cons c' num =>
        obtain ⟨rfl, rfl⟩ := List.cons.inj hcons
        simp
    refine ⟨_, [], num, based_plain hpre ?_ rfl, ?_⟩
    · split_ifs <;> omega
    · have hno : (base = 0 ∨ base = 16) ∧ c = 0x30 → hexFollows cursor = .ok false := by
        rintro ⟨h16, rfl⟩
        cases num with
        | nil =>
          obtain ⟨hc, _⟩ := List.cons.inj hcons
          exact absurd hc (by decide)
        | cons c' num =>
          obtain ⟨rfl, rfl⟩ := List.cons.inj hcons
          obtain ⟨hex, hfollows, hiff⟩ := hexFollows_eq num
          cases hex with
          | false => exact hfollows
          | true =>
            obtain ⟨x, d, more, rfl, hx, hd⟩ := hiff.mp rfl
            exact absurd ⟨h16, x, d, more, rfl, hx, hd⟩ hpre
      have hrun : radix base c cursor =
          if base = 0 then pure (if c = 0x30 then 8 else 10, c, cursor) else pure (base, c, cursor) := by
        simp only [radix]
        by_cases hcond : (base = 0 ∨ base = 16) ∧ c = 0x30
        · rw [if_pos hcond, hno hcond, ok_bind]
          rfl
        · rw [if_neg hcond, pure_bind]
          rfl
      rw [hrun, hfirst]
      by_cases hzero : base = 0
      · simp only [if_pos hzero, hhead]
        rfl
      · simp only [if_neg hzero]
        rfl

/-! ## The subject -/

/-- **What `convert` finds.** -/
inductive Found (limit : Bool → Nat) (base : Nat) (t : List UInt8) (negative : Bool) :
    Loop → List UInt8 → Prop
  | none {cursor : List UInt8} (h : ∀ text negative n, text <+: behind t → ¬ Expected base text negative n) :
      Found limit base t negative ⟨0, 0, none⟩ cursor
  | some {text cursor : List UInt8} {n : Nat} {l : Loop} (h : Subject base (behind t) text negative n)
      (hloop : if n ≤ limit negative then l = ⟨n, 1, Option.none⟩
        else l = ⟨limit negative, -1, Option.some .erange⟩)
      (hend : t.length + 1 - cursor.length - 1 = (t.takeWhile isSpace).length + text.length) :
      Found limit base t negative l cursor

theorem convert_found {limit : Bool → Nat} (hlimit : ∀ negative, limit negative < 2 ^ 32) {base : Nat}
    (hbase : base = 0 ∨ 2 ≤ base) (t : List UInt8) :
    ∃ negative l cursor, convert limit (t ++ [0]) base = .ok (negative, l, cursor) ∧
      Found limit base t negative l cursor := by
  obtain ⟨sgn, num, negative, hsigned, hsign⟩ := sign_eq (behind t)
  obtain ⟨base', pre, body, hbased, hradix⟩ := radix_eq hbase num
  obtain ⟨c₀, cursor₀, hfirst₀, _⟩ := first_eq (behind t)
  obtain ⟨c₁, cursor₁, hfirst₁, _⟩ := first_eq num
  obtain ⟨c₂, cursor₂, hfirst₂, hcons₂⟩ := first_eq body
  obtain ⟨l, cursor, hdigits, hlen, hholds⟩ := digits_holds (hlimit negative) .start hcons₂
  refine ⟨negative, l, cursor, ?_, ?_⟩
  · rw [hfirst₀, ok_bind, hfirst₁] at hsign
    rw [hfirst₁, ok_bind, hfirst₂] at hradix
    simp only [convert]
    rw [skipSpaces_eq, hfirst₀, ok_bind]
    dsimp only at hsign hradix ⊢
    rw [hsign]
    dsimp only [Except.map]
    rw [ok_bind]
    dsimp only
    rw [hradix]
    dsimp only [Except.map]
    rw [ok_bind]
    dsimp only
    rw [hdigits]
    rfl
  · have hall := List.takeWhile_append_dropWhile (p := isSpace) (l := t)
    have hlength : (t.takeWhile isSpace).length + (behind t).length = t.length := by
      rw [← List.length_append, behind, hall]
    obtain ⟨ds, hds⟩ : ∃ ds, ds = body.takeWhile (below base') := ⟨_, rfl⟩
    rw [← hds] at hlen hholds
    rw [List.nil_append] at hholds
    have hprefix : ds <+: body := hds ▸ List.takeWhile_prefix _
    have hbelow : ∀ c ∈ ds, below base' c = true := by
      intro c hc
      rw [hds] at hc
      exact List.all_eq_true.mp List.all_takeWhile c hc
    by_cases hnil : ds = []
    · subst hnil
      cases hholds with
      | start =>
        refine .none fun text negative' n hpre hexp => ?_
        obtain ⟨sgn', num', rfl, hs', hn'⟩ := hexp
        obtain ⟨rfl, rfl, hnum⟩ := hsigned.only hs' hn' hpre
        exact hbased.some hn' hnum hds.symm
      | fits hne _ => exact absurd rfl hne
      | outside hne _ => exact absurd rfl hne
    · have hnumber := hbased.number ⟨hnil, hbelow⟩ hprefix
      have hsubject : Subject base (behind t) (sgn ++ (pre ++ ds)) negative (magnitude base' ds) := by
        refine ⟨⟨sgn, _, rfl, hsigned.sign, hnumber⟩, ?_, ?_⟩
        · rw [hsigned.text, hbased.text]
          obtain ⟨tail, htail⟩ := hprefix
          exact ⟨tail, by rw [← htail]; simp⟩
        · intro text' negative' n' hexp hpre
          obtain ⟨sgn', num', rfl, hs', hn'⟩ := hexp
          obtain ⟨rfl, _, hnum⟩ := hsigned.only hs' hn' hpre
          have hle := hbased.longest hn' hnum
          rw [← hds] at hle
          simp only [List.length_append]
          omega
      refine .some hsubject ?_ ?_
      · cases hholds with
        | start => exact absurd rfl hnil
        | fits _ hle => rw [if_pos hle]
        | outside _ hlt => rw [if_neg (by omega)]
      · have htext : (behind t).length = sgn.length + (pre.length + body.length) := by
          rw [hsigned.text, hbased.text]
          simp
        simp only [List.length_append]
        omega

/-! ## The two functions -/

/-- The bases that are accepted. -/
def Base (base : Int) : Prop := base = 0 ∨ 2 ≤ base ∧ base ≤ 36

instance (base : Int) : Decidable (Base base) := inferInstanceAs (Decidable (_ ∨ _))

theorem Base.toNat {base : Int} (h : Base base) : base.toNat = 0 ∨ 2 ≤ base.toNat := by
  cases h with
  | inl hzero => exact .inl (by omega)
  | inr htwo => exact .inr (by omega)

theorem Base.accepted {base : Int} (h : Base base) : ¬ (base ≠ 0 ∧ (base < 2 ∨ 36 < base)) := by
  intro hbad
  cases h with
  | inl hzero => exact hbad.1 hzero
  | inr htwo => omega

theorem long_of_lt {n : Nat} (h : n < 2 ^ 31) : long n = .ok (n : Int) := if_pos h

theorem endPointer_of_ne {string cursor : List UInt8} {l : Loop} (h : l.converted ≠ 0) :
    endPointer string l cursor = string.length - cursor.length - 1 := if_pos h

theorem longValue_of_le {negative : Bool} {n : Nat} (h : n ≤ longLimit negative) :
    longValue negative n = some (if negative then -(n : Int) else n) := by
  cases negative with
  | true =>
    have hn : n ≤ 2 ^ 31 := h
    rw [longValue, if_pos rfl, if_pos hn, if_pos rfl]
  | false =>
    have hn : n ≤ 2 ^ 31 - 1 := h
    rw [longValue, if_neg Bool.false_ne_true, if_pos (by omega), if_neg Bool.false_ne_true]

theorem longValue_of_lt {negative : Bool} {n : Nat} (h : longLimit negative < n) :
    longValue negative n = none := by
  cases negative with
  | true =>
    have hn : 2 ^ 31 < n := h
    rw [longValue, if_pos rfl, if_neg (by omega)]
  | false =>
    have hn : 2 ^ 31 - 1 < n := h
    rw [longValue, if_neg Bool.false_ne_true, if_neg (by omega)]

theorem strtol_conversion (t : List UInt8) {base : Int} (h : Base base) :
    ∃ r, strtol (t ++ [0]) base = .ok r ∧ Conversion longValue longNearest base.toNat t r := by
  have hlimit : ∀ negative, longLimit negative < 2 ^ 32 := by decide
  obtain ⟨negative, l, cursor, hrun, hfound⟩ := convert_found hlimit h.toNat t
  unfold strtol
  rw [if_neg h.accepted, hrun, ok_bind]
  cases hfound with
  | none hno => exact ⟨⟨0, 0, none⟩, by simp [endPointer, long], .none hno⟩
  | @some text _ n _ hsubject hloop hend =>
    have hlen : (t ++ [0]).length - cursor.length - 1 = (t.takeWhile isSpace).length + text.length := by
      simpa using hend
    by_cases hle : n ≤ longLimit negative
    · rw [if_pos hle] at hloop
      subst hloop
      refine ⟨_, ?_, .fits hsubject (longValue_of_le hle)⟩
      dsimp only
      rw [endPointer_of_ne Int.one_ne_zero, hlen, if_neg (by decide : ¬ (1 : Int) < 0)]
      cases negative with
      | true =>
        have hn : n ≤ 2 ^ 31 := hle
        rw [if_pos (by decide)]
        by_cases hmin : n = 2 ^ 31
        · rw [if_pos hmin, hmin]
          rfl
        · rw [if_neg hmin, long_of_lt (by omega), ok_bind]
          rfl
      | false =>
        have hn : n ≤ 2 ^ 31 - 1 := hle
        rw [if_neg (by decide), long_of_lt (by omega), ok_bind]
        rfl
    · rw [if_neg hle] at hloop
      subst hloop
      refine ⟨_, ?_, .range hsubject (longValue_of_lt (Nat.lt_of_not_le hle))⟩
      dsimp only
      rw [if_pos (by decide : (-1 : Int) < 0), endPointer_of_ne (by simp), hlen]
      rfl

theorem strtoul_conversion (t : List UInt8) {base : Int} (h : Base base) :
    ∃ r, strtoul (t ++ [0]) base = .ok r ∧
      Conversion ulongValue (fun _ => 2 ^ 32 - 1) base.toNat t r := by
  have hlimit : ∀ negative, (fun _ : Bool => ulongMax) negative < 2 ^ 32 := by decide
  obtain ⟨negative, l, cursor, hrun, hfound⟩ := convert_found hlimit h.toNat t
  unfold strtoul
  rw [if_neg h.accepted, hrun, ok_bind]
  cases hfound with
  | none hno => exact ⟨⟨0, 0, none⟩, by simp [endPointer]; rfl, .none hno⟩
  | @some text _ n _ hsubject hloop hend =>
    have hlen : (t ++ [0]).length - cursor.length - 1 = (t.takeWhile isSpace).length + text.length := by
      simpa using hend
    by_cases hle : n ≤ ulongMax
    · rw [if_pos hle] at hloop
      subst hloop
      have hn : n ≤ 2 ^ 32 - 1 := hle
      have hv : ulongValue negative n = some (if negative then (-(n : Int)) % 2 ^ 32 else (n : Int)) :=
        if_pos (by omega)
      refine ⟨_, ?_, .fits hsubject hv⟩
      dsimp only
      rw [endPointer_of_ne Int.one_ne_zero, hlen]
      cases negative with
      | true =>
        have hneg : (((2 ^ 32 - n) % 2 ^ 32 : Nat) : Int) = (-(n : Int)) % 2 ^ 32 := by omega
        rw [if_pos (by decide), if_pos rfl, hneg]
        rfl
      | false =>
        rw [if_neg (by decide), if_neg Bool.false_ne_true]
        rfl
    · rw [if_neg hle] at hloop
      subst hloop
      have hn : 2 ^ 32 - 1 < n := Nat.lt_of_not_le hle
      have hv : ulongValue negative n = none := if_neg (by omega)
      refine ⟨_, ?_, .range hsubject hv⟩
      dsimp only
      rw [endPointer_of_ne (by simp), hlen, if_neg (by simp)]
      rfl

/-- **`strtol` and `strtoul` convert the subject sequence**, for every string and every base: nothing
    behind the NUL is read and nothing overflows, the value and the end pointer are those of the longest
    text of the expected form, and `errno` is stored on a range error or for an invalid base only. -/
theorem strtox_exact (t : List UInt8) (base : Int) :
    if Base base then
      (∃ r, strtol (t ++ [0]) base = .ok r ∧ Conversion longValue longNearest base.toNat t r) ∧
      (∃ r, strtoul (t ++ [0]) base = .ok r ∧
        Conversion ulongValue (fun _ => 2 ^ 32 - 1) base.toNat t r)
    else
      strtol (t ++ [0]) base = .ok ⟨0, 0, some .einval⟩ ∧
      strtoul (t ++ [0]) base = .ok ⟨0, 0, some .einval⟩ := by
  split
  · rename_i h
    exact ⟨strtol_conversion t h, strtoul_conversion t h⟩
  · rename_i h
    have hbad : base ≠ 0 ∧ (base < 2 ∨ 36 < base) := by
      unfold Base at h
      omega
    exact ⟨if_pos hbad, if_pos hbad⟩

/-- `" -0x1Fz"`. -/
example : strtol ([0x20, 0x2d, 0x30, 0x78, 0x31, 0x46, 0x7a] ++ [0]) 0 = .ok ⟨-31, 6, none⟩ := by rfl

end DiscoBSD.Strtol
