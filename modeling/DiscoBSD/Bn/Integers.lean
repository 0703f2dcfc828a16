import Mathlib
import DiscoBSD.Bn.Division
import DiscoBSD.Bn.Power

/-!
# The integers

**What the calls do to numbers in storage is what their operations do to integers**, whichever numbers are operand and
result of a call, and wherever the allocator puts them.
-/

set_option autoImplicit false

namespace DiscoBSD.Bn

open Function (update)

/-- The calls, with the numbers of the caller and its contexts. -/
inductive Op where
  | add (r a b : ℕ)
  | sub (r a b : ℕ)
  | mul (r a b : ℕ) (ctx : Option ℕ)
  | div (dv rem : Option ℕ) (a d : ℕ) (ctx : Option ℕ)
  | exp (r a p : ℕ) (ctx : Option ℕ)
  | rshift (r a : ℕ) (n : ℤ)
  | maskBits (a : ℕ) (n : ℤ)

def Op.run (al : Allocator) (s : St) : Op → Bool × St
  | .add r a b => bnAdd al s (.user r) (.user a) (.user b)
  | .sub r a b => bnSub al s (.user r) (.user a) (.user b)
  | .mul r a b ctx => bnMul al s (.user r) (.user a) (.user b) ctx
  | .div dv rem a d ctx => bnDiv al s (dv.map .user) (rem.map .user) (.user a) (.user d) ctx
  | .exp r a p ctx => bnExp al s (.user r) (.user a) (.user p) ctx
  | .rshift r a n => bnRshift al s (.user r) (.user a) n
  | .maskBits a n => bnMaskBits s (.user a) n

/-! ## What they are for -/

/-- The numbers after the operation. -/
def Op.results (z : ℕ → ℤ) : Op → ℕ → ℤ
  | .add r a b => update z r (z a + z b)
  | .sub r a b => update z r (z a - z b)
  | .mul r a b _ => update z r (z a * z b)
  | .div dv rem a d _ => fun k =>
    if dv = some k then Int.tdiv (z a) (z d) else if rem = some k then Int.tmod (z a) (z d) else z k
  | .exp r a p _ => update z r (z a ^ (z p).toNat)
  | .rshift r a n => update z r (Int.tdiv (z a) ((2 ^ n.toNat : ℕ) : ℤ))
  | .maskBits a n => update z a (Int.tmod (z a) ((2 ^ n.toNat : ℕ) : ℤ))

/-- Operations that have no result, and one object as both results. -/
def Op.Refused (z : ℕ → ℤ) : Op → Prop
  | .div dv rem _ d _ => z d = 0 ∨ (dv ≠ none ∧ dv = rem)
  | .exp _ _ p _ => z p < 0
  | .rshift _ _ n => n < 0
  | .maskBits a n => n < 0 ∨ Nat.size (z a).natAbs < n
  | _ => False

/-- An operand or the result needs as many limbs as there can be: the room that is asked for may be more. -/
def Op.Large (z : ℕ → ℤ) : Op → Prop
  | .add _ a b => large ≤ (z a).natAbs ∨ large ≤ (z b).natAbs
  | .sub _ a b => large ≤ (z a).natAbs ∨ large ≤ (z b).natAbs
  | .mul _ a b _ => large ≤ (z a * z b).natAbs
  | .exp _ a p _ => large ≤ (z a ^ (z p).toNat).natAbs
  | _ => False

/-! ## What they do -/

/-- The integer that a number of the caller stands for. -/
def St.z (s : St) (k : ℕ) : ℤ := int s (.user k)

structure Op.Spec (al : Allocator) (s : St) (op : Op) (ok : Bool) (s' : St) : Prop where
  valid : Valid s'
  done : ok = true → ∀ k, s'.z k = op.results s.z k
  kept : ok = false → ∀ k, s'.z k = s.z k
  refuses : op.Refused s.z → ok = false
  why : ok = false → op.Refused s.z ∨ op.Large s.z ∨ Denied al s s'

section

variable {al : Allocator} {s s' : St} {r : ℕ} {x : ℤ} {op : Op} {ok : Bool} {tooLarge : Prop}

theorem Sets.z (h : Sets s s' (.user r) x) (k : ℕ) : s'.z k = update s.z r x k := by
  by_cases hk : k = r
  · rw [hk, Function.update_self]
    exact h.result
  · rw [Function.update_of_ne hk]
    exact (h.others (.user k) fun h => hk (Name.user.inj h)).int

theorem Ends.spec (h : Ends al s (.user r) x tooLarge ok s') (hresults : op.results s.z = update s.z r x)
    (hrefuses : op.Refused s.z → ok = false) (hwhy : tooLarge → op.Refused s.z ∨ op.Large s.z) : op.Spec al s ok s' := by
  cases ok with
  | false =>
    have hkeeps := h.kept rfl
    refine ⟨hkeeps.valid, fun h => absurd h (by decide), fun _ k => (hkeeps.same (.user k)).int, hrefuses, fun _ => ?_⟩
    rcases h.why rfl with hdenied | hlarge
    · exact .inr (.inr hdenied)
    · exact (hwhy hlarge).imp_right .inl
  | true =>
    have hsets := h.done rfl
    refine ⟨hsets.valid, fun _ k => ?_, fun h => absurd h (by decide), hrefuses, fun h => absurd h (by decide)⟩
    rw [hresults]
    exact hsets.z k

theorem map_user (dv : Option ℕ) (k : ℕ) : dv.map Name.user = some (.user k) ↔ dv = some k := by
  cases dv with
  | none => simp
  | some i => simp

theorem map_user_same (dv rem : Option ℕ) :
    (dv.map Name.user ≠ none ∧ dv.map Name.user = rem.map Name.user) ↔ dv ≠ none ∧ dv = rem := by
  cases dv with
  | none => simp
  | some i =>
    cases rem with
    | none => simp
    | some j => simp

theorem Divided.spec {dv rem : Option ℕ} {a d : ℕ} {ctx : Option ℕ}
    (h : Divided al s (dv.map .user) (rem.map .user) (Int.tdiv (s.z a) (s.z d)) (Int.tmod (s.z a) (s.z d))
      (s.z d = 0 ∨ (dv.map Name.user ≠ none ∧ dv.map Name.user = rem.map .user)) ok s') :
    (Op.div dv rem a d ctx).Spec al s ok s' := by
  have hrefused := or_congr_right (a := s.z d = 0) (map_user_same dv rem)
  refine ⟨h.valid, fun hok k => ?_, fun hok k => ((h.kept hok).same (.user k)).int, fun hr => h.refuses (hrefused.mpr hr), fun hok => ?_⟩
  · rw [Op.results]
    dsimp only
    by_cases hdv : dv = some k
    · rw [if_pos hdv]
      exact h.quotient hok (.user k) ((map_user dv k).mpr hdv)
    · rw [if_neg hdv]
      by_cases hrem : rem = some k
      · rw [if_pos hrem]
        exact h.remainder hok (.user k) ((map_user rem k).mpr hrem)
      · rw [if_neg hrem]
        exact (h.others hok (.user k) (fun h => hdv ((map_user dv k).mp h)) fun h => hrem ((map_user rem k).mp h)).int
  · rcases h.why hok with hdenied | hr
    · exact .inr (.inr hdenied)
    · exact .inl (hrefused.mp hr)

theorem Powered.spec {a p : ℕ} {ctx : Option ℕ}
    (h : Powered al s (.user r) (s.z a ^ (s.z p).toNat) (s.z p < 0) ok s') : (Op.exp r a p ctx).Spec al s ok s' := by
  refine ⟨h.valid, fun hok k => ?_, fun hok k => (h.kept (.user k) (by simp) hok).int, h.refuses, fun hok => ?_⟩
  · rw [Op.results]
    by_cases hk : k = r
    · rw [hk, Function.update_self]
      exact h.done hok
    · rw [Function.update_of_ne hk]
      exact (h.others (.user k) (by simp) hok fun h => hk (Name.user.inj h)).int
  · rcases h.why hok with hdenied | hrefused | hlarge
    · exact .inr (.inr hdenied)
    · exact .inl hrefused
    · exact .inr (.inl hlarge)

/-- One call. -/
theorem Op.run_spec (al : Allocator) (hv : Valid s) (op : Op) : ∃ ok s', op.run al s = (ok, s') ∧ op.Spec al s ok s' := by
  cases op with
  | add r a b =>
    obtain ⟨ok, s', hrun, h⟩ := bnAdd_spec al hv (.user r) (.user a) (.user b)
    exact ⟨ok, s', hrun, h.spec rfl False.elim fun hl => .inr (by rwa [Op.Large, St.z, St.z, natAbs_int, natAbs_int])⟩
  | sub r a b =>
    obtain ⟨ok, s', hrun, h⟩ := bnSub_spec al hv (.user r) (.user a) (.user b)
    exact ⟨ok, s', hrun, h.spec rfl False.elim fun hl => .inr (by rwa [Op.Large, St.z, St.z, natAbs_int, natAbs_int])⟩
  | mul r a b ctx =>
    obtain ⟨ok, s', hrun, h⟩ := bnMul_spec al hv (.user r) (.user a) (.user b) ctx
    exact ⟨ok, s', hrun, h.spec rfl False.elim .inr⟩
  | div dv rem a d ctx =>
    obtain ⟨ok, s', hrun, h⟩ := bnDiv_spec al hv (dv.map .user) (rem.map .user) (.user a) (.user d) ctx
    exact ⟨ok, s', hrun, h.spec⟩
  | exp r a p ctx =>
    obtain ⟨ok, s', hrun, h⟩ := bnExp_spec al hv (.user r) (.user a) (.user p) (by simp) (by simp) (by simp) ctx
    exact ⟨ok, s', hrun, h.spec⟩
  | rshift r a n =>
    obtain ⟨ok, s', hrun, h, hrefuses⟩ := bnRshift_spec al hv (.user r) (.user a) n
    exact ⟨ok, s', hrun, h.spec rfl hrefuses .inl⟩
  | maskBits a n =>
    obtain ⟨ok, s', hrun, h, hrefuses⟩ := bnMaskBits_spec al hv (.user a) n
    rw [← natAbs_int] at h hrefuses
    exact ⟨ok, s', hrun, h.spec rfl hrefuses .inl⟩

end

/-! ## Canonical form -/

/-- Numbers in canonical form, each in storage of its own. -/
structure Numbers extends St where
  valid : Valid toSt

/-- The numbers of a program that has made none yet. -/
def Numbers.start : Numbers where
  mem := fun _ => 0
  num := fun _ => ⟨NULL, 0, 0, false⟩
  ctx := fun _ => ⟨NULL, 0⟩
  fresh := 1
  asked := 0
  valid :=
    ⟨fun _ => ⟨le_refl _, Nat.zero_le _, fun h => absurd rfl h, fun h => absurd h Bool.false_ne_true, fun _ => rfl, Nat.one_pos⟩,
      fun _ _ _ h => absurd rfl h, fun _ h => absurd rfl h, fun _ _ => rfl, Nat.one_pos⟩

/-- Magnitudes from here on are above the limit. -/
def limit : ℕ := radix ^ bnMaxlimbs

theorem Valid.natAbs_lt {s : St} (hv : Valid s) (k : ℕ) : (s.z k).natAbs < limit := by
  rw [St.z, natAbs_int]
  calc mag s (.user k) < radix ^ (s.num (.user k)).top := val_lt ..
    _ ≤ limit := Nat.pow_le_pow_right radix_pos (hv.top_le _)

/-- **The library computes with integers.** From numbers in canonical form, each call leaves numbers in canonical form.
One that succeeds has set its results to those of the operation and nothing else. One that fails has changed no number.
The refused operations fail, and so do those with a result above the limit; others fail only when the allocator refuses, or
at the limit. The comparisons compare the integers. -/
theorem refines_integers (al : Allocator) (x : Numbers) (op : Op) :
    ∃ ok, ∃ y : Numbers, op.run al x.toSt = (ok, y.toSt) ∧
      (ok = true → y.z = op.results x.z) ∧
      (ok = false → y.z = x.z) ∧
      (op.Refused x.z → ok = false) ∧
      ((∃ k, limit ≤ (op.results x.z k).natAbs) → ok = false) ∧
      (ok = false → op.Refused x.z ∨ op.Large x.z ∨ Denied al x.toSt y.toSt) ∧
      (∀ i j, bnCmp x.toSt (.user i) (.user j) = Int.sign (x.z i - x.z j)) ∧
      ∀ i j, bnUcmp x.toSt (.user i) (.user j) = Int.sign (|x.z i| - |x.z j|) := by
  obtain ⟨ok, s', hrun, h⟩ := op.run_spec al x.valid
  refine ⟨ok, ⟨s', h.valid⟩, hrun, fun hok => funext (h.done hok), fun hok => funext (h.kept hok), h.refuses, ?_, h.why,
    fun i j => bnCmp_spec x.valid _ _, fun i j => bnUcmp_spec x.valid _ _⟩
  rintro ⟨k, hk⟩
  cases ok with
  | false => rfl
  | true =>
    have hlt := h.valid.natAbs_lt k
    rw [h.done rfl k] at hlt
    exact absurd hk (Nat.not_le.mpr hlt)

end DiscoBSD.Bn
