import Mathlib
import DiscoBSD.Exec.Records

/-!
# The length of a user string

`exec_string_length` reads a string in chunks of 32 bytes, and a chunk that cannot be read whole byte by
byte. What it answers does not depend on the chunks: **the bytes up to and with the first NUL if they are
within the limit and can be read, `E2BIG` if the limit comes first, `EFAULT` if an unreadable byte does**.
-/

set_option autoImplicit false

namespace DiscoBSD.Exec

open DiscoBSD.Lib DiscoBSD.Rmap DiscoBSD.Swapram

/-- A byte the process may read. -/
def UserMem.Readable (u : UserMem) (a : Nat) : Prop := u.lower ≤ a ∧ a < u.upper

instance (u : UserMem) (a : Nat) : Decidable (u.Readable a) := inferInstanceAs (Decidable (_ ∧ _))

/-- The first `n` bytes from `a` on can be read, and none of them is a NUL. -/
def Passed (u : UserMem) (a n : Nat) : Prop := ∀ i, i < n → u.Readable (a + i) ∧ u.mem (a + i) ≠ 0

section
variable {u : UserMem} {a : Nat}

theorem Passed.succ {n : Nat} (h : Passed u a n) (hread : u.Readable (a + n)) (hne : u.mem (a + n) ≠ 0) :
    Passed u a (n + 1) := by
  intro i hi
  by_cases heq : i = n
  · subst heq
    exact ⟨hread, hne⟩
  · exact h i (by omega)

theorem Passed.add {n k : Nat} (h : Passed u a n) (hrest : Passed u (a + n) k) : Passed u a (n + k) := by
  intro i hi
  by_cases hlt : i < n
  · exact h i hlt
  · have hi' := hrest (i - n) (by omega)
    rw [show a + n + (i - n) = a + i by omega] at hi'
    exact hi'

/-- What stops a scan within `limit` bytes, and the answer to it. -/
inductive Stops (u : UserMem) (a limit : Nat) : Except Errno Nat → Prop
  | nul {d : Nat} (hd : d < limit) (hpassed : Passed u a d) (hread : u.Readable (a + d))
      (hnul : u.mem (a + d) = 0) : Stops u a limit (.ok (d + 1))
  | long (hpassed : Passed u a limit) : Stops u a limit (.error .e2big)
  | fault {d : Nat} (hd : d < limit) (hpassed : Passed u a d) (hread : ¬ u.Readable (a + d)) :
      Stops u a limit (.error .efault)

/-! ## What stops a scan is unique -/

/-- A byte that stops a scan is not passed. -/
theorem Passed.le {n d : Nat} (h : Passed u a n) (hstop : ¬ u.Readable (a + d) ∨ u.mem (a + d) = 0) :
    n ≤ d := by
  by_contra hlt
  obtain ⟨hread, hne⟩ := h d (by omega)
  cases hstop with
  | inl hout => exact hout hread
  | inr hnul => exact hne hnul

theorem Stops.unique {limit : Nat} {r r' : Except Errno Nat} (h : Stops u a limit r)
    (h' : Stops u a limit r') : r = r' := by
  cases h with
  | nul hd hpassed hread hnul =>
    cases h' with
    | nul hd' hpassed' hread' hnul' =>
      have hle := hpassed.le (.inr hnul')
      have hge := hpassed'.le (.inr hnul)
      rw [Nat.le_antisymm hle hge]
    | long hpassed' => exact absurd (hpassed'.le (.inr hnul)) (by omega)
    | fault hd' hpassed' hread' =>
      have hle := hpassed.le (.inl hread')
      have hge := hpassed'.le (.inr hnul)
      rw [Nat.le_antisymm hge hle] at hread'
      exact absurd hread hread'
  | long hpassed =>
    cases h' with
    | nul hd' _ _ hnul' => exact absurd (hpassed.le (.inr hnul')) (by omega)
    | long _ => rfl
    | fault hd' _ hread' => exact absurd (hpassed.le (.inl hread')) (by omega)
  | fault hd hpassed hread =>
    cases h' with
    | nul hd' hpassed' hread' hnul' =>
      have hle := hpassed.le (.inr hnul')
      have hge := hpassed'.le (.inl hread)
      rw [Nat.le_antisymm hge hle] at hread'
      exact absurd hread' hread
    | long hpassed' => exact absurd (hpassed'.le (.inl hread)) (by omega)
    | fault _ _ _ => rfl

/-- An unreadable byte without a NUL before it stops the scan, at the first such byte. -/
theorem Stops.of_unreadable {limit d : Nat} (hd : d < limit) (hout : ¬ u.Readable (a + d))
    (hbefore : ∀ i, i < d → u.Readable (a + i) → u.mem (a + i) ≠ 0) :
    Stops u a limit (.error .efault) := by
  have hex : ∃ i, ¬ u.Readable (a + i) := ⟨d, hout⟩
  have hle : Nat.find hex ≤ d := Nat.find_min' hex hout
  refine .fault (d := Nat.find hex) (by omega) (fun i hi => ?_) (Nat.find_spec hex)
  have hread : u.Readable (a + i) := not_not.mp (Nat.find_min hex hi)
  exact ⟨hread, hbefore i (by omega) hread⟩

/-! ## The two loops -/

/-- A chunk is copied if and only if each of its bytes can be read. -/
theorem copyin_cases {n : Nat} (hn : n ≠ 0) :
    (copyin u a n = .ok (readAt u.mem a n) ∧ ∀ i, i < n → u.Readable (a + i)) ∨
    (copyin u a n = .error .efault ∧ ∃ i, i < n ∧ ¬ u.Readable (a + i)) := by
  by_cases hin : u.lower ≤ a ∧ a + n ≤ u.upper
  · refine .inl ⟨copyin_of_inside hn hin.1 hin.2, fun i hi => ?_⟩
    exact ⟨by omega, by omega⟩
  · refine .inr ⟨?_, ?_⟩
    · cases hcopy : copyin u a n with
      | ok bs =>
        obtain ⟨hlow, hhigh, _⟩ := copyin_ok hn hcopy
        exact absurd ⟨hlow, hhigh⟩ hin
      | error e =>
        unfold copyin at hcopy
        rw [if_neg hn] at hcopy
        split at hcopy
        · cases hcopy
          rfl
        · cases hcopy
    · -- The first byte is below the window, or the last one above it.
      by_cases hlow : u.lower ≤ a
      · exact ⟨n - 1, by omega, fun hread => by have hlt := hread.2; omega⟩
      · exact ⟨0, by omega, fun hread => hlow hread.1⟩

/-- A chunk with an unreadable byte, byte by byte: the fault or a NUL comes before its end. -/
theorem scanBytes_stops {left offset : Nat} (h : Passed u a offset)
    (hbad : ∃ i, i < offset + left ∧ ¬ u.Readable (a + i)) :
    Stops u a (offset + left) (scanBytes u a .efault left offset) := by
  induction left generalizing offset with
  | zero =>
    obtain ⟨i, hi, hout⟩ := hbad
    exact absurd (h i hi).1 hout
  | succ left ih =>
    rw [scanBytes]
    cases copyin_cases (u := u) (a := a + offset) Nat.one_ne_zero with
    | inl hok =>
      obtain ⟨hcopy, hread⟩ := hok
      have hread := hread 0 Nat.one_pos
      rw [hcopy, show readAt u.mem (a + offset) 1 = [u.mem (a + offset)] from rfl, ok_bind]
      by_cases hnul : u.mem (a + offset) = 0
      · rw [if_pos (by rw [hnul])]
        exact .nul (by omega) h hread hnul
      · rw [if_neg (by simpa using hnul), show offset + (left + 1) = offset + 1 + left by omega]
        apply ih (h.succ hread hnul)
        rwa [show offset + 1 + left = offset + (left + 1) by omega]
    | inr herr =>
      obtain ⟨hcopy, i, hi, hout⟩ := herr
      obtain rfl : i = 0 := by omega
      rw [hcopy]
      exact .fault (by omega) h hout

/-- What stops the scan of a later part. -/
theorem Stops.later {length k limit : Nat} {r : Except Errno Nat} (h : Passed u a length)
    (hrest : Stops u (a + length) k r) (hk : length + k ≤ limit) (hr : r ≠ .error .e2big) :
    Stops u a limit (r.map (length + ·)) := by
  cases hrest with
  | @nul d hd hpassed hread hnul =>
    rw [Nat.add_assoc] at hread hnul
    exact .nul (d := length + d) (by omega) (h.add hpassed) hread hnul
  | long _ => exact absurd rfl hr
  | fault hd hpassed hread =>
    rw [Nat.add_assoc] at hread
    exact .fault (by omega) (h.add hpassed) hread

/-- A scan of the bytes up to an unreadable one does not run into its limit. -/
theorem Stops.ne_e2big {k : Nat} {r : Except Errno Nat} (h : Stops u a k r)
    (hbad : ∃ i, i < k ∧ ¬ u.Readable (a + i)) : r ≠ .error .e2big := by
  cases h with
  | nul _ _ _ _ => exact nofun
  | long hpassed =>
    obtain ⟨i, hi, hout⟩ := hbad
    exact absurd (hpassed i hi).1 hout
  | fault _ _ _ => exact nofun

/-- A chunk that was copied: what its first NUL says of the memory. -/
theorem findIdx?_readAt {n : Nat} :
    match (readAt u.mem a n).findIdx? (· == 0) with
    | some d => d < n ∧ u.mem (a + d) = 0 ∧ ∀ i, i < d → u.mem (a + i) ≠ 0
    | none => ∀ i, i < n → u.mem (a + i) ≠ 0 := by
  split
  · rename_i d hfind
    obtain ⟨hd, hzero, hbefore⟩ := List.findIdx?_eq_some_iff_getElem.mp hfind
    rw [readAt_length] at hd
    refine ⟨hd, by simpa [readAt] using hzero, fun i hi => ?_⟩
    simpa [readAt] using hbefore i hi
  · rename_i hfind
    rw [List.findIdx?_eq_none_iff] at hfind
    intro i hi
    have hget : (readAt u.mem a n)[i]? = some (u.mem (a + i)) := by rw [getElem?_readAt, if_pos hi]
    simpa using hfind _ (List.mem_of_getElem? hget)

/-- **The loop of `exec_string_length`**, from behind the bytes it has passed. -/
theorem userLength_stops {limit turns length : Nat} (hturns : limit < turns + length)
    (hle : length ≤ limit) (h : Passed u a length) :
    Stops u a limit (userLength u a limit turns length) := by
  induction turns generalizing length with
  | zero => omega
  | succ turns ih =>
    rw [userLength]
    split
    · rename_i hlt
      obtain ⟨chunk, hchunk⟩ : ∃ chunk, chunk = min bufferSize (limit - length) := ⟨_, rfl⟩
      have hpos : 0 < bufferSize := by decide
      simp only [← hchunk]
      cases copyin_cases (u := u) (a := a + length) (n := chunk) (by omega) with
      | inl hok =>
        obtain ⟨hcopy, hread⟩ := hok
        have hfind := findIdx?_readAt (u := u) (a := a + length) (n := chunk)
        rw [hcopy]
        dsimp only
        split
        · rename_i d hsome
          rw [hsome] at hfind
          obtain ⟨hd, hnul, hbefore⟩ := hfind
          have hread' := hread d hd
          rw [Nat.add_assoc] at hnul hread'
          exact .nul (d := length + d) (by omega) (h.add fun i hi => ⟨hread i (by omega), hbefore i hi⟩)
            hread' hnul
        · rename_i hnone
          rw [hnone] at hfind
          exact ih (by omega) (by omega) (h.add fun i hi => ⟨hread i hi, hfind i hi⟩)
      | inr herr =>
        obtain ⟨hcopy, hbad⟩ := herr
        rw [hcopy]
        have hnone : Passed u (a + length) 0 := fun i hi => absurd hi (Nat.not_lt_zero i)
        have hstops := scanBytes_stops (u := u) (a := a + length) hnone (by simpa using hbad)
        rw [Nat.zero_add] at hstops
        exact hstops.later h (by omega) (hstops.ne_e2big hbad)
    · have heq : length = limit := by omega
      subst heq
      exact .long h

/-- **What stops the scan decides the answer.** -/
theorem userLength_eq {limit : Nat} {r : Except Errno Nat} (h : Stops u a limit r) :
    userLength u a limit (limit + 1) 0 = r :=
  (userLength_stops (by omega) (Nat.zero_le _) nofun).unique h

end

/-- **The length of a user string.** A NUL within the limit and behind readable bytes gives the bytes up
    to and with it, as a `u_short`, which is exact for every limit below 2^16; the limit before that gives
    `E2BIG`, an unreadable byte before that `EFAULT`. -/
theorem execStringLength_exact (u : UserMem) (string limit : Nat) :
    (∀ d, d < limit → (∀ i, i ≤ d → u.Readable (string + i)) → (∀ i, i < d → u.mem (string + i) ≠ 0) →
      u.mem (string + d) = 0 →
        execStringLength u (.user string) limit = .ok (wrap 16 (d + 1)) ∧
        (limit < 2 ^ 16 → wrap 16 (d + 1) = d + 1)) ∧
    ((∀ i, i < limit → u.Readable (string + i) ∧ u.mem (string + i) ≠ 0) →
      execStringLength u (.user string) limit = .error .e2big) ∧
    (∀ d, d < limit → ¬ u.Readable (string + d) →
      (∀ i, i < d → u.Readable (string + i) → u.mem (string + i) ≠ 0) →
        execStringLength u (.user string) limit = .error .efault) := by
  refine ⟨?_, ?_, ?_⟩
  · intro d hd hread hbefore hnul
    have hstops : Stops u string limit (.ok (d + 1)) :=
      .nul hd (fun i hi => ⟨hread i (by omega), hbefore i hi⟩) (hread d (Nat.le_refl d)) hnul
    refine ⟨?_, fun hlimit => wrap_of_lt (by omega)⟩
    simp [execStringLength, userLength_eq hstops, Except.map]
  · intro hpassed
    simp [execStringLength, userLength_eq (.long hpassed), Except.map]
  · intro d hd hout hbefore
    simp [execStringLength, userLength_eq (.of_unreadable hd hout hbefore), Except.map]

/-- It is not the distance to the NUL: an empty string, whose NUL is no distance away, has length 1. -/
theorem execStringLength_empty :
    ¬ ∀ (u : UserMem) (string limit d : Nat), d < limit → (∀ i, i ≤ d → u.Readable (string + i)) →
      (∀ i, i < d → u.mem (string + i) ≠ 0) → u.mem (string + d) = 0 →
        execStringLength u (.user string) limit = .ok d := by
  intro hall
  have hread : ∀ i, i ≤ 0 → (⟨0, 1, fun _ => 0⟩ : UserMem).Readable (0 + i) := by
    intro i hi
    exact ⟨Nat.zero_le _, show 0 + i < 1 by omega⟩
  have hzero := hall ⟨0, 1, fun _ => 0⟩ 0 1 0 Nat.one_pos hread nofun rfl
  have hone : execStringLength ⟨0, 1, fun _ => 0⟩ (.user 0) 1 = .ok 1 := rfl
  rw [hone] at hzero
  cases hzero

end DiscoBSD.Exec
