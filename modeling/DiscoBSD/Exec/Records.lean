import DiscoBSD.Exec.Args

/-!
# What the two passes agree on

The iterators hand out the same sources in both passes, and the limit on a string's length depends on
the bytes before it only. So **the length of a string in the second pass is its length in the first**, and
the records come out at the counted size. What the strings are is said in terms of the caller's memory:
pointers and the NUL-terminated strings they lead to.
-/

set_option autoImplicit false

namespace DiscoBSD.Exec

open DiscoBSD.Lib DiscoBSD.Rmap DiscoBSD.Swapram
open DiscoBSD.Swap (Kernel Conf)

/-! ## Strings -/

/-- The string at an address of the window, without its NUL. -/
structure CString (u : UserMem) (a : Nat) (s : List UInt8) : Prop where
  low : u.lower ≤ a
  high : a + (s.length + 1) ≤ u.upper
  read : readAt u.mem a (s.length + 1) = s ++ [0]
  nonzero : (0 : UInt8) ∉ s

/-- A string of the kernel, up to its first NUL. -/
def cstr (k : List UInt8) : List UInt8 := k.takeWhile (· ≠ 0)

/-- The string of a source. -/
def Source.Is (u : UserMem) : Source → List UInt8 → Prop
  | .user a, s => CString u a s
  | .kernel k, s => s = cstr k

section
variable {u : UserMem}

theorem copyin_ok {a n : Nat} {bs : List UInt8} (hn : n ≠ 0) (h : copyin u a n = .ok bs) :
    u.lower ≤ a ∧ a + n ≤ u.upper ∧ bs = readAt u.mem a n := by
  unfold copyin at h
  rw [if_neg hn] at h
  split at h
  · cases h
  · rename_i hspan
    rw [Bool.not_eq_false] at hspan
    unfold UserMem.spanContains at hspan
    split at hspan
    · cases hspan
    · have hle := of_decide_eq_true hspan
      exact ⟨by lia, by lia, (Except.ok.inj h).symm⟩

theorem copyin_of_inside {a n : Nat} (hn : n ≠ 0) (hlow : u.lower ≤ a) (hhigh : a + n ≤ u.upper) :
    copyin u a n = .ok (readAt u.mem a n) := by
  have hspan : u.spanContains a n = true := by
    unfold UserMem.spanContains
    rw [if_neg (by lia)]
    exact decide_eq_true (by lia)
  unfold copyin
  rw [if_neg hn, hspan, if_neg (by decide)]

/-- The first NUL from `a` on is `m` bytes further. -/
structure NulAt (u : UserMem) (a m : Nat) : Prop where
  low : u.lower ≤ a
  high : a + (m + 1) ≤ u.upper
  before : ∀ i, i < m → u.mem (a + i) ≠ 0
  here : u.mem (a + m) = 0

theorem NulAt.cstring {a m : Nat} (h : NulAt u a m) : CString u a (readAt u.mem a m) := by
  refine ⟨h.low, ?_, ?_, ?_⟩
  · rw [readAt_length]
    exact h.high
  · rw [readAt_length, readAt_add]
    simp [readAt, h.here]
  · intro hmem
    obtain ⟨i, hi, hzero⟩ := List.mem_map.mp hmem
    exact h.before i (List.mem_range.mp hi) hzero

/-- The bytes up to `length` are in the window and none of them is a NUL. -/
structure NoNul (u : UserMem) (a length : Nat) : Prop where
  low : length ≠ 0 → u.lower ≤ a
  before : ∀ i, i < length → u.mem (a + i) ≠ 0

/-- A NUL found in the part behind. -/
theorem NoNul.nulAt {a length offset : Nat} (h : NoNul u a length) (hrest : NulAt u (a + length) offset) :
    NulAt u a (length + offset) := by
  have hhigh := hrest.high
  refine ⟨?_, by lia, fun i hi => ?_, by rw [← Nat.add_assoc]; exact hrest.here⟩
  · by_cases hzero : length = 0
    · subst hzero
      exact hrest.low
    · exact h.low hzero
  · by_cases hlt : i < length
    · exact h.before i hlt
    · have hi' := hrest.before (i - length) (by lia)
      rw [show a + length + (i - length) = a + i by lia] at hi'
      exact hi'

/-- One byte more. -/
theorem NoNul.succ {a length : Nat} (h : NoNul u a length) (hlow : u.lower ≤ a + length)
    (hne : u.mem (a + length) ≠ 0) : NoNul u a (length + 1) := by
  constructor
  · intro _
    by_cases hzero : length = 0
    · subst hzero
      exact hlow
    · exact h.low hzero
  · intro i hi
    by_cases heq : i = length
    · subst heq
      exact hne
    · exact h.before i (by lia)

/-- `scanBytes` finds the first NUL of the chunk. -/
theorem scanBytes_ok {string : Nat} {e : Errno} {left offset n : Nat}
    (h : scanBytes u string e left offset = .ok n) (hno : NoNul u string offset) :
    ∃ m, n = m + 1 ∧ m < offset + left ∧ NulAt u string m := by
  induction left generalizing offset with
  | zero => cases h
  | succ left ih =>
    obtain ⟨byte, hcopy, hthen⟩ := bind_ok h
    obtain ⟨hlow, hhigh, hbyte⟩ := copyin_ok (by decide) hcopy
    have hone : byte = [u.mem (string + offset)] := hbyte
    by_cases hzero : byte = [0]
    · rw [if_pos hzero] at hthen
      cases hthen
      rw [hone, List.singleton_inj] at hzero
      have hnul : NulAt u (string + offset) 0 := ⟨hlow, hhigh, nofun, hzero⟩
      exact ⟨offset, rfl, by lia, hno.nulAt hnul⟩
    · rw [if_neg hzero] at hthen
      rw [hone, List.singleton_inj] at hzero
      obtain ⟨m, hm, hlt, hnul⟩ := ih hthen (hno.succ hlow hzero)
      exact ⟨m, hm, by lia, hnul⟩

/-- A user string's length is where its NUL is. -/
theorem userLength_ok {string limit turns length n : Nat}
    (h : userLength u string limit turns length = .ok n) (hno : NoNul u string length) :
    ∃ m, n = m + 1 ∧ m < limit ∧ NulAt u string m := by
  induction turns generalizing length with
  | zero => cases h
  | succ turns ih =>
    rw [userLength] at h
    split at h
    · rename_i hlt
      obtain ⟨chunk, hchunk⟩ : ∃ chunk, chunk = min bufferSize (limit - length) := ⟨_, rfl⟩
      have hpos : 0 < bufferSize := by decide
      simp only [← hchunk] at h
      split at h
      · -- The chunk leaves the window: the NUL has to come before.
        obtain ⟨k, hscan, rfl⟩ := exists_of_map_eq_ok h
        obtain ⟨m, rfl, hm, hnul⟩ := scanBytes_ok hscan ⟨fun h0 => absurd rfl h0, nofun⟩
        exact ⟨length + m, rfl, by lia, hno.nulAt hnul⟩
      · rename_i buffer hcopy
        obtain ⟨hlow, hhigh, rfl⟩ := copyin_ok (by lia) hcopy
        have hget : ∀ i, i < chunk → (readAt u.mem (string + length) chunk)[i]? =
            some (u.mem (string + length + i)) := by
          intro i hi
          rw [getElem?_readAt, if_pos hi]
        split at h
        · rename_i offset hfind
          obtain ⟨hoff, hzero, hbefore⟩ := List.findIdx?_eq_some_iff_getElem.mp hfind
          rw [readAt_length] at hoff
          cases h
          refine ⟨length + offset, rfl, by lia, hno.nulAt ⟨hlow, by lia, fun i hi => ?_, ?_⟩⟩
          · have hb := hbefore i hi
            simpa [readAt] using hb
          · simpa [readAt] using hzero
        · rename_i hfind
          rw [List.findIdx?_eq_none_iff] at hfind
          refine ih h ⟨fun _ => ?_, fun i hi => ?_⟩
          · by_cases hzero : length = 0
            · subst hzero
              exact hlow
            · exact hno.low hzero
          · by_cases hlt' : i < length
            · exact hno.before i hlt'
            · have hb := hfind _ (List.mem_of_getElem? (hget (i - length) (by lia)))
              rw [show string + length + (i - length) = string + i by lia] at hb
              simpa using hb
    · cases h

end

/-- The first NUL of a string in the kernel. -/
theorem cstr_eq {k : List UInt8} {m : Nat} (hbefore : ∀ i, i < m → charAt k i ≠ 0)
    (hhere : charAt k m = 0) : cstr k = (List.range m).map (charAt k) := by
  induction k generalizing m with
  | nil =>
    cases m with
    | zero => rfl
    | succ m => exact absurd rfl (hbefore 0 (Nat.zero_lt_succ m))
  | cons c k ih =>
    cases m with
    | zero =>
      have hc : c = 0 := hhere
      simp [cstr, hc]
    | succ m =>
      have hc : c ≠ 0 := hbefore 0 (Nat.zero_lt_succ m)
      have hrest := ih (m := m) (fun i hi => hbefore (i + 1) (by lia)) hhere
      rw [List.range_succ_eq_map, List.map_cons, List.map_map]
      simp only [cstr, List.takeWhile_cons, decide_eq_true hc, if_true] at hrest ⊢
      rw [hrest]
      rfl

theorem kernelLength_ok {k : List UInt8} {limit turns length n : Nat}
    (h : kernelLength k limit turns length = .ok n) (hno : ∀ i, i < length → charAt k i ≠ 0) :
    ∃ m, n = m + 1 ∧ m < limit ∧ (∀ i, i < m → charAt k i ≠ 0) ∧ charAt k m = 0 := by
  induction turns generalizing length with
  | zero => cases h
  | succ turns ih =>
    rw [kernelLength] at h
    split at h
    · rename_i hlt
      split at h
      · rename_i hzero
        cases h
        exact ⟨length, rfl, hlt, hno, hzero⟩
      · rename_i hne
        refine ih h fun i hi => ?_
        by_cases heq : i = length
        · subst heq
          exact hne
        · exact hno i (by lia)
    · cases h

/-- **The length of a source is its string with the NUL.** -/
theorem execStringLength_ok {u : UserMem} {src : Source} {limit n : Nat}
    (h : execStringLength u src limit = .ok n) (hlimit : limit < 2 ^ 16) :
    ∃ s, src.Is u s ∧ n = s.length + 1 ∧ n ≤ limit := by
  cases src with
  | user a =>
    obtain ⟨k, hlen, rfl⟩ := exists_of_map_eq_ok h
    obtain ⟨m, rfl, hm, hnul⟩ := userLength_ok hlen ⟨fun h0 => absurd rfl h0, nofun⟩
    have hwrap : wrap 16 (m + 1) = m + 1 := wrap_of_lt (by lia)
    exact ⟨_, hnul.cstring, by rw [readAt_length, hwrap], by lia⟩
  | kernel k =>
    obtain ⟨j, hlen, rfl⟩ := exists_of_map_eq_ok h
    obtain ⟨m, rfl, hm, hbefore, hhere⟩ := kernelLength_ok hlen nofun
    have hwrap : wrap 16 (m + 1) = m + 1 := wrap_of_lt (by lia)
    exact ⟨cstr k, rfl, by rw [cstr_eq hbefore hhere, List.length_map, List.length_range, hwrap],
      by lia⟩

/-! ## Records -/

/-- A string with its NUL. -/
def terminated (s : List UInt8) : List UInt8 := s ++ [0]

/-- The strings, one after the other. -/
def stringBytes (strs : List (List UInt8)) : List UInt8 := strs.flatMap terminated

/-- A record: the length of the terminated string in 16 bits, and the string. -/
def record (s : List UInt8) : List UInt8 := leBytes 2 (s.length + 1) ++ terminated s

def records (strs : List (List UInt8)) : List UInt8 := strs.flatMap record

@[simp] theorem terminated_length (s : List UInt8) : (terminated s).length = s.length + 1 := by
  simp [terminated]

@[simp] theorem record_length (s : List UInt8) : (record s).length = 2 + (s.length + 1) := by
  simp [record]

@[simp] theorem stringBytes_cons (s : List UInt8) (strs : List (List UInt8)) :
    stringBytes (s :: strs) = terminated s ++ stringBytes strs := rfl

@[simp] theorem records_cons (s : List UInt8) (strs : List (List UInt8)) :
    records (s :: strs) = record s ++ records strs := rfl

@[simp] theorem records_append (xs ys : List (List UInt8)) : records (xs ++ ys) = records xs ++ records ys :=
  List.flatMap_append

@[simp] theorem stringBytes_append (xs ys : List (List UInt8)) :
    stringBytes (xs ++ ys) = stringBytes xs ++ stringBytes ys := List.flatMap_append

theorem records_length (strs : List (List UInt8)) :
    (records strs).length = (stringBytes strs).length + 2 * strs.length := by
  induction strs with
  | nil => rfl
  | cons s strs ih =>
    simp only [records_cons, stringBytes_cons, List.length_append, record_length, terminated_length,
      List.length_cons, ih]
    lia

theorem length_le_stringBytes (strs : List (List UInt8)) : strs.length ≤ (stringBytes strs).length := by
  induction strs with
  | nil => exact Nat.le_refl _
  | cons s strs ih =>
    simp only [stringBytes_cons, List.length_append, terminated_length, List.length_cons]
    lia

/-! ## The two passes -/

/-- The sources an iterator hands out. -/
inductive Yields {ι : Type} (next : ι → Except Errno (Option Source × ι)) : ι → List Source → Prop
  | stop {it it' : ι} (h : next it = .ok (none, it')) : Yields next it []
  | more {it it' : ι} {src : Source} {srcs : List Source} (h : next it = .ok (some src, it'))
      (hrest : Yields next it' srcs) : Yields next it (src :: srcs)

/-- The strings of the sources, each within what the ones before it leave of the limit. -/
inductive Counted (u : UserMem) : Nat → List Source → List (List UInt8) → Prop
  | nil {b : Nat} : Counted u b [] []
  | cons {b : Nat} {src : Source} {s : List UInt8} {srcs : List Source} {strs : List (List UInt8)}
      (hlen : execStringLength u src (ncargs - b) = .ok (s.length + 1)) (hle : s.length + 1 ≤ ncargs - b)
      (his : src.Is u s) (hrest : Counted u (b + (s.length + 1)) srcs strs) :
      Counted u b (src :: srcs) (s :: strs)

section
variable {ι : Type} {u : UserMem} {next : ι → Except Errno (Option Source × ι)}

/-- The counting pass. -/
theorem countLoop_ok {turns : Nat} {it : ι} {c c' : Counts} (h : countLoop u next turns it c = .ok c')
    (hb : c.bytes ≤ ncargs) :
    ∃ srcs strs, Yields next it srcs ∧ Counted u c.bytes srcs strs ∧ srcs.length < turns ∧
      srcs.length = strs.length ∧ c'.bytes = c.bytes + (stringBytes strs).length ∧
      c'.records = c.records + (records strs).length ∧ c'.strings = c.strings + strs.length ∧
      c'.bytes ≤ ncargs := by
  induction turns generalizing it c with
  | zero => cases h
  | succ turns ih =>
    obtain ⟨⟨src, it'⟩, hnext, hthen⟩ := bind_ok h
    cases src with
    | none =>
      cases hthen
      exact ⟨[], [], .stop hnext, .nil, Nat.zero_lt_succ _, rfl, rfl, rfl, rfl, hb⟩
    | some src =>
      obtain ⟨c₁, hcount, hloop⟩ := bind_ok hthen
      unfold execCountString at hcount
      split at hcount
      · cases hcount
      · obtain ⟨n, hlen, hc⟩ := bind_ok hcount
        cases hc
        obtain ⟨s, his, rfl, hle⟩ := execStringLength_ok hlen (by unfold ncargs; lia)
        obtain ⟨srcs, strs, hy, hcd, hlt, hsame, hbytes, hrecs, hstrs, hmax⟩ := ih hloop (by
          simp only []
          lia)
        refine ⟨src :: srcs, s :: strs, .more hnext hy, .cons hlen hle his hcd, by simpa using hlt,
          by simpa using hsame, ?_, ?_, ?_, hmax⟩
        · simp only [hbytes, stringBytes_cons, List.length_append, terminated_length]
          lia
        · simp only [hrecs, records_cons, List.length_append, record_length]
          lia
        · simp only [hstrs, List.length_cons]
          lia

variable {cfg : Conf} {σ : Kernel} {sp : ExecSpool} {bs : List UInt8}

/-- The chunks of a user string come out in order. -/
theorem writeChunks_wrote {a : Nat} {s : List UInt8} (hs : CString u a s) (turns : Nat) {offset : Nat}
    (h : Wrote cfg σ sp bs) (hle : offset ≤ s.length + 1) (hturns : s.length + 1 - offset ≤ turns)
    (hroom : bs.length + (s.length + 1 - offset) ≤ sp.size) :
    ∃ σ' sp', writeChunks cfg u a (s.length + 1) turns σ sp offset = .ok (none, σ', sp') ∧
      Wrote cfg σ' sp' (bs ++ (terminated s).drop offset) ∧ sp'.place = sp.place ∧ SameBooks σ σ' := by
  have hend : ∀ (xs : List UInt8) (n : Nat), n = s.length + 1 → xs ++ (terminated s).drop n = xs := by
    intro xs n hall
    rw [hall, List.drop_of_length_le (by simp), List.append_nil]
  induction turns generalizing σ sp bs offset with
  | zero =>
    rw [hend bs offset (by lia)]
    exact ⟨σ, sp, rfl, h, rfl, .refl σ⟩
  | succ turns ih =>
    rw [writeChunks]
    by_cases hlt : offset < s.length + 1
    · obtain ⟨chunk, hchunk⟩ : ∃ chunk, chunk = min bufferSize (s.length + 1 - offset) := ⟨_, rfl⟩
      have hpos : 0 < bufferSize := by decide
      have hlow := hs.low
      have hhigh := hs.high
      have hcopy : copyin u (a + offset) chunk = .ok (((terminated s).drop offset).take chunk) := by
        rw [copyin_of_inside (by lia) (by lia) (by lia), terminated, ← hs.read,
          readAt_drop_take _ _ (by lia)]
      have hlen : (((terminated s).drop offset).take chunk).length = chunk := by
        rw [List.length_take, List.length_drop, terminated_length]
        lia
      obtain ⟨σ₁, sp₁, hwrite, hwrote, hplace, hbooks⟩ := @execSpoolWrite_wrote cfg σ sp bs
        (((terminated s).drop offset).take chunk) h (by rw [hlen]; lia)
      have hsize : sp₁.size = sp.size := congrArg (·.2.1) hplace
      have hsplit : ∀ n, n = offset + chunk → bs ++ ((terminated s).drop offset).take chunk ++
          (terminated s).drop n = bs ++ (terminated s).drop offset := by
        intro n hn
        rw [hn, ← List.drop_drop, List.append_assoc, List.take_append_drop]
      obtain ⟨σ₂, sp₂, hloop, hwrote₂, hplace₂, hbooks₂⟩ := @ih σ₁ sp₁ _ (offset + chunk) hwrote (by lia)
        (by lia) (by rw [List.length_append, hlen, hsize]; lia)
      rw [hsplit _ rfl] at hwrote₂
      refine ⟨σ₂, sp₂, ?_, hwrote₂, hplace₂.trans hplace, hbooks.trans hbooks₂⟩
      simp only [if_pos hlt, ← hchunk, hcopy, hwrite]
      exact hloop
    · rw [if_neg hlt, hend bs offset (by lia)]
      exact ⟨σ, sp, rfl, h, rfl, .refl σ⟩

/-- A string is written as its record. -/
theorem execWriteString_wrote {src : Source} {s : List UInt8} {b : Nat} (h : Wrote cfg σ sp bs)
    (hlen : execStringLength u src (ncargs - b) = .ok (s.length + 1)) (his : src.Is u s)
    (hroom : bs.length + (record s).length ≤ sp.size) :
    ∃ σ' sp', execWriteString cfg u σ sp src b = .ok (none, σ', sp', b + (s.length + 1)) ∧
      Wrote cfg σ' sp' (bs ++ record s) ∧ sp'.place = sp.place ∧ SameBooks σ σ' := by
  rw [record_length] at hroom
  obtain ⟨σ₁, sp₁, hwrite, hwrote, hplace, hbooks⟩ := @execSpoolWrite_wrote cfg σ sp bs
    (leBytes 2 (s.length + 1)) h (by rw [leBytes_length]; lia)
  have hsize : sp₁.size = sp.size := congrArg (·.2.1) hplace
  have hroom₁ : (bs ++ leBytes 2 (s.length + 1)).length + (s.length + 1) ≤ sp₁.size := by
    rw [List.length_append, leBytes_length, hsize]
    lia
  cases src with
  | user a =>
    obtain ⟨σ₂, sp₂, hchunks, hwrote₂, hplace₂, hbooks₂⟩ := writeChunks_wrote his (s.length + 1) hwrote
      (Nat.zero_le _) (Nat.le_refl _) hroom₁
    rw [List.drop_zero, List.append_assoc] at hwrote₂
    refine ⟨σ₂, sp₂, ?_, hwrote₂, hplace₂.trans hplace, hbooks.trans hbooks₂⟩
    simp only [execWriteString, hlen]
    rw [hwrite]
    show (writeChunks cfg u a (s.length + 1) (s.length + 1) σ₁ sp₁ 0 >>= _) = _
    rw [hchunks]
    rfl
  | kernel k =>
    have hbytes : (List.range (s.length + 1)).map (charAt k) = terminated s := by
      obtain ⟨j, hk, hj⟩ := exists_of_map_eq_ok hlen
      obtain ⟨m, rfl, _, hbefore, hhere⟩ := kernelLength_ok hk nofun
      have hs : s = cstr k := his
      rw [cstr_eq hbefore hhere] at hs
      have hm : s.length = m := by
        rw [hs, List.length_map, List.length_range]
      rw [hm, List.range_succ, List.map_append, ← hs]
      simp [terminated, hhere]
    obtain ⟨σ₂, sp₂, hwrite₂, hwrote₂, hplace₂, hbooks₂⟩ := @execSpoolWrite_wrote cfg σ₁ sp₁ _
      (terminated s) hwrote (by rw [terminated_length]; exact hroom₁)
    rw [List.append_assoc] at hwrote₂
    refine ⟨σ₂, sp₂, ?_, hwrote₂, hplace₂.trans hplace, hbooks.trans hbooks₂⟩
    simp only [execWriteString, hlen]
    rw [hwrite]
    show (execSpoolWrite cfg σ₁ sp₁ ((List.range (s.length + 1)).map (charAt k)) >>= _) = _
    rw [hbytes, hwrite₂]
    rfl

/-- The writing pass. -/
theorem writeLoop_wrote {it : ι} {srcs : List Source} {strs : List (List UInt8)} {b turns : Nat}
    (hy : Yields next it srcs) (hcd : Counted u b srcs strs) (hturns : srcs.length < turns)
    (h : Wrote cfg σ sp bs) (hroom : bs.length + (records strs).length ≤ sp.size) :
    ∃ σ' sp', writeLoop cfg u next turns it σ sp b = .ok (none, σ', sp', b + (stringBytes strs).length) ∧
      Wrote cfg σ' sp' (bs ++ records strs) ∧ sp'.place = sp.place ∧ SameBooks σ σ' := by
  induction hcd generalizing it turns σ sp bs with
  | nil =>
    cases hy with
    | stop hnext =>
      obtain ⟨turns, rfl⟩ := Nat.exists_eq_succ_of_ne_zero (Nat.ne_of_gt hturns)
      refine ⟨σ, sp, ?_, ?_, rfl, .refl σ⟩
      · simp only [writeLoop, hnext]
        rfl
      · rw [show records [] = [] from rfl, List.append_nil]
        exact h
  | @cons b src s srcs strs hlen hle his hrest ih =>
    cases hy with
    | more hnext hy' =>
      obtain ⟨turns, rfl⟩ := Nat.exists_eq_succ_of_ne_zero (Nat.ne_zero_of_lt hturns)
      simp only [records_cons, List.length_append] at hroom
      obtain ⟨σ₁, sp₁, hwrite, hwrote, hplace, hbooks⟩ := execWriteString_wrote h hlen his (by lia)
      have hsize : sp₁.size = sp.size := congrArg (·.2.1) hplace
      obtain ⟨σ₂, sp₂, hloop, hwrote₂, hplace₂, hbooks₂⟩ := ih hy' (by simpa using hturns) hwrote
        (by rw [List.length_append, hsize]; lia)
      rw [List.append_assoc] at hwrote₂
      refine ⟨σ₂, sp₂, ?_, hwrote₂, hplace₂.trans hplace, hbooks.trans hbooks₂⟩
      simp only [writeLoop, hnext]
      rw [hwrite]
      show writeLoop cfg u next turns _ σ₁ sp₁ _ = _
      rw [hloop, stringBytes_cons, List.length_append, terminated_length, Nat.add_assoc]

end

/-! ## What the caller supplies -/

/-- The strings a vector of pointers leads to. The vector ends with a null pointer; a null vector is
    empty. -/
inductive Pointers (u : UserMem) : Nat → List (List UInt8) → Prop
  | null : Pointers u 0 []
  | nil {v : Nat} (hv : v ≠ 0) (hp : copyinPtr u v = .ok 0) : Pointers u v []
  | cons {v p : Nat} {s : List UInt8} {strs : List (List UInt8)} (hv : v ≠ 0)
      (hp : copyinPtr u v = .ok p) (hne : p ≠ 0) (hs : CString u p s) (hrest : Pointers u (v + 4) strs) :
      Pointers u v (s :: strs)

/-- The strings behind the first of a vector. -/
inductive BehindFirst (u : UserMem) : Nat → List (List UInt8) → Prop
  | null : BehindFirst u 0 []
  | nil {v : Nat} (hv : v ≠ 0) (hp : copyinPtr u v = .ok 0) : BehindFirst u v []
  | cons {v p : Nat} {strs : List (List UInt8)} (hv : v ≠ 0) (hp : copyinPtr u v = .ok p) (hne : p ≠ 0)
      (hrest : Pointers u (v + 4) strs) : BehindFirst u v strs

/-- The interpreter and its argument. -/
def scriptPrefix (x : ExecParams) : List (List UInt8) :=
  cstr x.interpname :: if charAt x.interparg 0 ≠ 0 then [cstr x.interparg] else []

/-- The argument strings of an exec. For a script, its name stands for `argv[0]`. -/
inductive SuppliedArgs (u : UserMem) (x : ExecParams) : List (List UInt8) → Prop
  | plain {args : List (List UInt8)} (h : x.interpreted = false) (hv : Pointers u x.userargp args) :
      SuppliedArgs u x args
  | script {name : List UInt8} {rest : List (List UInt8)} (h : x.interpreted = true)
      (hname : CString u x.userfname name) (hrest : BehindFirst u x.userargp rest) :
      SuppliedArgs u x (scriptPrefix x ++ name :: rest)
  | nameless (h : x.interpreted = true) (hnull : x.userfname = 0) : SuppliedArgs u x (scriptPrefix x)

section
variable {u : UserMem} {x : ExecParams}

theorem execEnvIterNext_pointers {v b : Nat} {srcs : List Source} {strs : List (List UInt8)}
    (hy : Yields (execEnvIterNext u) v srcs) (hcd : Counted u b srcs strs) : Pointers u v strs := by
  induction hy generalizing b strs with
  | @stop v v' h =>
    cases hcd
    unfold execEnvIterNext at h
    split at h
    · rename_i hv
      rw [hv]
      exact .null
    · rename_i hv
      obtain ⟨p, hp, hthen⟩ := bind_ok h
      by_cases hzero : p = 0
      · subst hzero
        exact .nil hv hp
      · rw [if_neg hzero] at hthen
        cases hthen
  | @more v v' src srcs h hrest ih =>
    cases hcd with
    | cons hlen hle his hcd' =>
      unfold execEnvIterNext at h
      split at h
      · cases h
      · rename_i hv
        obtain ⟨p, hp, hthen⟩ := bind_ok h
        by_cases hzero : p = 0
        · rw [if_pos hzero] at hthen
          cases hthen
        · rw [if_neg hzero] at hthen
          cases hthen
          exact .cons hv hp hzero his (ih hcd')

/-- `exec_arg_iter_next` behind the prefix and behind the first of the vector. -/
theorem execArgIterNext_plain {it : ExecArgIter} (hidx : it.prefix_count ≤ it.index)
    (hskip : it.skip_first = false) :
    execArgIterNext u x it = if it.next = 0 then .ok (none, it) else
      (copyinPtr u it.next).map fun p => execArgIterTake { it with next := it.next + 4 } p := by
  unfold execArgIterNext
  rw [if_neg (Nat.not_lt.mpr hidx), hskip]
  by_cases hnull : it.next = 0
  · rw [if_pos hnull, if_pos hnull]
  · rw [if_neg hnull, if_neg hnull]
    cases copyinPtr u it.next with
    | error e => rfl
    | ok p => rfl

/-- From there on it goes along the vector. -/
theorem execArgIterNext_pointers {it : ExecArgIter} {b : Nat} {srcs : List Source}
    {strs : List (List UInt8)} (hy : Yields (execArgIterNext u x) it srcs) (hcd : Counted u b srcs strs)
    (hidx : it.prefix_count ≤ it.index) (hskip : it.skip_first = false) : Pointers u it.next strs := by
  induction hy generalizing b strs with
  | @stop it it' h =>
    cases hcd
    rw [execArgIterNext_plain hidx hskip] at h
    split at h
    · rename_i hv
      rw [hv]
      exact .null
    · rename_i hv
      obtain ⟨p, hp, hthen⟩ := exists_of_map_eq_ok h
      by_cases hzero : p = 0
      · subst hzero
        exact .nil hv hp
      · rw [execArgIterTake, if_neg hzero] at hthen
        cases hthen
  | @more it it' src srcs h hrest ih =>
    cases hcd with
    | cons hlen hle his hcd' =>
      rw [execArgIterNext_plain hidx hskip] at h
      split at h
      · cases h
      · rename_i hv
        obtain ⟨p, hp, hthen⟩ := exists_of_map_eq_ok h
        by_cases hzero : p = 0
        · rw [execArgIterTake, if_pos hzero] at hthen
          cases hthen
        · rw [execArgIterTake, if_neg hzero] at hthen
          cases hthen
          exact .cons hv hp hzero his (ih hcd' (Nat.le_succ_of_le hidx) hskip)

/-- Behind the prefix of a script the first of the vector is skipped. -/
theorem execArgIterNext_behindFirst {it : ExecArgIter} {b : Nat} {srcs : List Source}
    {strs : List (List UInt8)} (hy : Yields (execArgIterNext u x) it srcs) (hcd : Counted u b srcs strs)
    (hidx : it.prefix_count ≤ it.index) (hskip : it.skip_first = true) : BehindFirst u it.next strs := by
  have hnext : execArgIterNext u x it = if it.next = 0 then .ok (none, it) else
      copyinPtr u it.next >>= fun first =>
        if first = 0 then .ok (none, { it with next := it.next + 4, skip_first := false })
        else copyinPtr u (it.next + 4) >>= fun argument =>
          .ok (execArgIterTake { it with next := it.next + 4 + 4, skip_first := false } argument) := by
    unfold execArgIterNext
    rw [if_neg (Nat.not_lt.mpr hidx), hskip]
    rfl
  by_cases hnull : it.next = 0
  · rw [hnull]
    cases hy with
    | stop h => cases hcd; exact .null
    | more h hrest =>
      rw [hnext, if_pos hnull] at h
      cases h
  · rw [if_neg hnull] at hnext
    -- The first pointer is there in every case, and a null one ends the vector.
    have hfirst : ∃ p, copyinPtr u it.next = .ok p := by
      cases hy with
      | stop h =>
        rw [hnext] at h
        obtain ⟨p, hp, _⟩ := bind_ok h
        exact ⟨p, hp⟩
      | more h _ =>
        rw [hnext] at h
        obtain ⟨p, hp, _⟩ := bind_ok h
        exact ⟨p, hp⟩
    obtain ⟨p, hp⟩ := hfirst
    by_cases hzero : p = 0
    · subst hzero
      rw [hp] at hnext
      have hstop : execArgIterNext u x it = .ok (none, { it with next := it.next + 4, skip_first := false }) :=
        hnext
      cases hy with
      | stop h => cases hcd; exact .nil hnull hp
      | more h _ =>
        rw [hstop] at h
        cases h
    · refine .cons hnull hp hzero ?_
      -- What comes is what comes from the iterator that has passed the first pointer.
      have hsame : execArgIterNext u x it =
          execArgIterNext u x { it with next := it.next + 4, skip_first := false } := by
        have hplain := @execArgIterNext_plain u x { it with next := it.next + 4, skip_first := false }
          hidx rfl
        rw [if_neg (Nat.succ_ne_zero _)] at hplain
        rw [hnext, hp, hplain]
        show (if p = 0 then _ else _) = _
        rw [if_neg hzero]
        show (copyinPtr u (it.next + 4) >>= _) = (copyinPtr u (it.next + 4)).map _
        cases copyinPtr u (it.next + 4) with
        | error e => rfl
        | ok q => rfl
      have hy' : Yields (execArgIterNext u x) { it with next := it.next + 4, skip_first := false } srcs := by
        cases hy with
        | stop h => exact .stop (hsame ▸ h)
        | more h hrest => exact .more (hsame ▸ h) hrest
      exact execArgIterNext_pointers hy' hcd hidx rfl

/-- The script's name and what is behind it, from an iterator that has handed out the prefix. -/
theorem execArgIterNext_script {it : ExecArgIter} {b : Nat} {srcs : List Source}
    {strs : List (List UInt8)} (hy : Yields (execArgIterNext u x) it srcs) (hcd : Counted u b srcs strs)
    (hidx : it.index + 1 = it.prefix_count) (hskip : it.skip_first = true)
    (hname : execArgIterNext u x it = .ok (execArgIterTake it x.userfname)) :
    (x.userfname = 0 ∧ strs = []) ∨
      ∃ name rest, strs = name :: rest ∧ CString u x.userfname name ∧ BehindFirst u it.next rest := by
  by_cases hnull : x.userfname = 0
  · left
    rw [execArgIterTake, if_pos hnull] at hname
    cases hy with
    | stop h => cases hcd; exact ⟨hnull, rfl⟩
    | more h _ =>
      rw [hname] at h
      cases h
  · right
    rw [execArgIterTake, if_neg hnull] at hname
    cases hy with
    | stop h =>
      rw [hname] at h
      cases h
    | more h hrest =>
      rw [hname] at h
      cases h
      cases hcd with
      | cons hlen hle his hcd' =>
        have hbehind := execArgIterNext_behindFirst hrest hcd' (Nat.le_of_eq hidx.symm) hskip
        exact ⟨_, _, rfl, his, hbehind⟩

/-- **The argument iterator hands out the arguments.** -/
theorem execArgIterNext_supplied {b : Nat} {srcs : List Source} {strs : List (List UInt8)}
    (hy : Yields (execArgIterNext u x) (execArgIterInit x) srcs) (hcd : Counted u b srcs strs) :
    SuppliedArgs u x strs := by
  cases hscript : x.interpreted with
  | false =>
    have hinit : execArgIterInit x = ⟨x.userargp, 0, 0, false⟩ := by
      simp only [execArgIterInit, hscript]
      rfl
    rw [hinit] at hy
    exact .plain hscript (execArgIterNext_pointers hy hcd (Nat.le_refl _) rfl)
  | true =>
    have hfirst : ∀ n, execArgIterNext u x ⟨x.userargp, 0, 2 + n, true⟩ =
        .ok (some (.kernel x.interpname), ⟨x.userargp, 1, 2 + n, true⟩) := by
      intro n
      rw [execArgIterNext, if_pos (by simp only []; lia), if_pos rfl]
    have hfinish : ∀ {pre rest : List (List UInt8)}, scriptPrefix x = pre →
        ((x.userfname = 0 ∧ rest = []) ∨ ∃ name tail, rest = name :: tail ∧ CString u x.userfname name ∧
          BehindFirst u x.userargp tail) → SuppliedArgs u x (pre ++ rest) := by
      rintro pre rest rfl (⟨hnull, rfl⟩ | ⟨name, tail, rfl, hname, htail⟩)
      · rw [List.append_nil]
        exact .nameless hscript hnull
      · exact .script hscript hname htail
    by_cases harg : charAt x.interparg 0 ≠ 0
    · have hinit : execArgIterInit x = ⟨x.userargp, 0, 2 + 1, true⟩ := by
        simp only [execArgIterInit, hscript, if_pos harg]
        rfl
      have hsecond : execArgIterNext u x ⟨x.userargp, 1, 2 + 1, true⟩ =
          .ok (some (.kernel x.interparg), ⟨x.userargp, 2, 2 + 1, true⟩) := by
        rw [execArgIterNext, if_pos (Nat.lt_succ_of_lt Nat.one_lt_two), if_neg Nat.one_ne_zero,
          if_pos ⟨harg, rfl⟩]
      have hthird : execArgIterNext u x ⟨x.userargp, 2, 2 + 1, true⟩ =
          .ok (execArgIterTake ⟨x.userargp, 2, 2 + 1, true⟩ x.userfname) := by
        rw [execArgIterNext, if_pos (Nat.lt_succ_self 2), if_neg (Nat.succ_ne_zero 1),
          if_neg (fun h => absurd h.2 (Nat.succ_ne_succ_iff.mpr Nat.one_ne_zero))]
      rw [hinit] at hy
      cases hy with
      | stop h =>
        rw [hfirst] at h
        cases h
      | more h hy₁ =>
        rw [hfirst] at h
        cases h
        cases hcd with
        | cons _ _ his hcd₁ =>
          cases hy₁ with
          | stop h =>
            rw [hsecond] at h
            cases h
          | more h hy₂ =>
            rw [hsecond] at h
            cases h
            cases hcd₁ with
            | cons _ _ his₁ hcd₂ =>
              obtain rfl : _ = cstr x.interpname := his
              obtain rfl : _ = cstr x.interparg := his₁
              have hpre : scriptPrefix x = [cstr x.interpname, cstr x.interparg] := by
                rw [scriptPrefix, if_pos harg]
              exact hfinish hpre (execArgIterNext_script hy₂ hcd₂ rfl rfl hthird)
    · have hinit : execArgIterInit x = ⟨x.userargp, 0, 2 + 0, true⟩ := by
        simp only [execArgIterInit, hscript, if_neg harg]
        rfl
      have hsecond : execArgIterNext u x ⟨x.userargp, 1, 2 + 0, true⟩ =
          .ok (execArgIterTake ⟨x.userargp, 1, 2 + 0, true⟩ x.userfname) := by
        rw [execArgIterNext, if_pos Nat.one_lt_two, if_neg Nat.one_ne_zero,
          if_neg (fun h => harg h.1)]
      rw [hinit] at hy
      cases hy with
      | stop h =>
        rw [hfirst] at h
        cases h
      | more h hy₁ =>
        rw [hfirst] at h
        cases h
        cases hcd with
        | cons _ _ his hcd₁ =>
          obtain rfl : _ = cstr x.interpname := his
          have hpre : scriptPrefix x = [cstr x.interpname] := by
            rw [scriptPrefix, if_neg harg]
          exact hfinish hpre (execArgIterNext_script hy₁ hcd₁ rfl rfl hsecond)

end

/-! ## The result of exec_save_args -/

/-- What is saved: the counts, and the records of all strings in a spool that is whole. -/
structure Saved (cfg : Conf) (σ : Kernel) (epp : ExecArgs) (args envs : List (List UInt8)) : Prop where
  argc : epp.argc = args.length
  envc : epp.envc = envs.length
  argbc : epp.argbc = (stringBytes args).length
  envbc : epp.envbc = (stringBytes envs).length
  le : (stringBytes args).length + (stringBytes envs).length ≤ ncargs
  intact : Intact cfg σ epp.spool (records (args ++ envs))

section
variable {cfg : Conf} {σ : Kernel} {u : UserMem} {x : ExecParams} {sp : ExecSpool}

/-- The second pass never fails after the first. -/
theorem saveWrite_saved {a e : Counts} {asrcs esrcs : List Source} {args envs : List (List UInt8)}
    (hay : Yields (execArgIterNext u x) (execArgIterInit x) asrcs) (hac : Counted u 0 asrcs args)
    (hat : asrcs.length < loopTurns) (hab : a.bytes = (stringBytes args).length)
    (has : a.strings = args.length) (hey : Yields (execEnvIterNext u) x.userenvp esrcs)
    (hec : Counted u 0 esrcs envs) (het : esrcs.length < loopTurns)
    (heb : e.bytes = (stringBytes envs).length) (hes : e.strings = envs.length)
    (hmax : (stringBytes args).length + (stringBytes envs).length ≤ ncargs) (h : Wrote cfg σ sp [])
    (hsize : sp.size = (records (args ++ envs)).length)
    (hheld : sp.backing = .swapram → σ.sr_spools ≠ 0 ∧
      ∃ held, PoolInv ⟨σ.sr_map, held⟩ ∧ ⟨sp.ramoff, roundgrain sp.size⟩ ∈ held) :
    ∃ epp σ', saveWrite cfg u x a e σ sp = .ok (.ok (epp, σ')) ∧ Saved cfg σ' epp args envs := by
  rw [records_append, List.length_append] at hsize
  obtain ⟨σ₁, sp₁, hargs, hw₁, hp₁, hb₁⟩ := writeLoop_wrote hay hac hat h (by
    rw [List.length_nil]
    lia)
  have hs₁ : sp₁.size = sp.size := congrArg (·.2.1) hp₁
  obtain ⟨σ₂, sp₂, henvs, hw₂, hp₂, hb₂⟩ := writeLoop_wrote hey hec het hw₁ (by
    rw [List.nil_append]
    lia)
  have hs₂ : sp₂.size = sp.size := (congrArg (·.2.1) hp₂).trans hs₁
  rw [List.nil_append, ← records_append] at hw₂
  have hall : sp₂.pos = sp₂.size := by
    rw [hw₂.pos, hs₂, records_append, List.length_append]
    exact hsize.symm
  obtain ⟨σ₃, sp₃, hflush, hcomplete, hp₃, hb₃⟩ := hw₂.flushed hall
  have hplace : sp₃.place = sp.place := hp₃.trans (hp₂.trans hp₁)
  have hbooks := (hb₁.trans hb₂).trans hb₃
  refine ⟨⟨wrap 16 a.strings, wrap 16 e.strings, wrap 16 a.bytes, wrap 16 e.bytes,
    { sp₃ with pos := 0 }⟩, σ₃, ?_, ⟨?_, ?_, ?_, ?_, hmax, ⟨⟨hcomplete.len, hcomplete.none, hcomplete.ram,
    hcomplete.flash⟩, fun hram => ?_⟩⟩⟩
  · have hagree : ¬(0 + (stringBytes args).length ≠ a.bytes ∨ 0 + (stringBytes envs).length ≠ e.bytes ∨
        sp₂.pos ≠ sp₂.size) := by
      rintro (hne | hne | hne)
      · exact hne ((Nat.zero_add _).trans hab.symm)
      · exact hne ((Nat.zero_add _).trans heb.symm)
      · exact hne hall
    simp only [saveWrite, hargs, bind, Except.bind, henvs, if_neg hagree, hflush]
    rfl
  · have hle := length_le_stringBytes args
    rw [← has]
    exact wrap_of_lt (by unfold ncargs at hmax; lia)
  · have hle := length_le_stringBytes envs
    rw [← hes]
    exact wrap_of_lt (by unfold ncargs at hmax; lia)
  · rw [← hab]
    exact wrap_of_lt (by unfold ncargs at hmax; lia)
  · rw [← heb]
    exact wrap_of_lt (by unfold ncargs at hmax; lia)
  · have hback : sp.backing = .swapram := (congrArg (·.1) hplace).symm.trans hram
    have hoff : sp₃.ramoff = sp.ramoff := congrArg (·.2.2.1) hplace
    have hsz : sp₃.size = sp.size := congrArg (·.2.1) hplace
    simp only [hoff, hsz, hbooks.map, hbooks.spools]
    exact hheld hback

/-- **`exec_save_args` saves the supplied strings or refuses them.** -/
theorem execSaveArgs_saved {held : List Extent} (hinv : PoolInv ⟨σ.sr_map, held⟩)
    (hpool : σ.sr_map.p_size ≤ cfg.pool) (hnone : sp.backing = .none) :
    Avoids spoolPanics (execSaveArgs cfg σ u x sp) ∧
      ∀ epp σ', execSaveArgs cfg σ u x sp = .ok (.ok (epp, σ')) → ∃ args envs, SuppliedArgs u x args ∧
        Pointers u x.userenvp envs ∧ Saved cfg σ' epp args envs := by
  unfold execSaveArgs
  split
  · exact ⟨.ok _, fun _ _ h => by cases h⟩
  · rename_i a ha
    obtain ⟨asrcs, args, hay, hac, hat, _, hab, har, has, _⟩ := countLoop_ok ha (Nat.zero_le _)
    split
    · exact ⟨.ok _, fun _ _ h => by cases h⟩
    · rename_i e he
      obtain ⟨esrcs, envs, hey, hec, het, _, heb, her, hes, _⟩ := countLoop_ok he (Nat.zero_le _)
      simp only [Nat.zero_add] at hab har has heb her hes hac hec
      split
      · exact ⟨.ok _, fun _ _ h => by cases h⟩
      · rename_i hfit
        have hmax : (stringBytes args).length + (stringBytes envs).length ≤ ncargs := by lia
        have hrec : e.records = (records (args ++ envs)).length := by
          rw [her, har, records_append, List.length_append]
        have hgo : ∀ sp₁ σ₁, execSpoolAlloc σ sp e.records = .ok (some sp₁, σ₁) →
            ∃ epp σ', saveWrite cfg u x a e σ₁ sp₁ = .ok (.ok (epp, σ')) ∧ Saved cfg σ' epp args envs := by
          intro sp₁ σ₁ halloc
          have hsmall : e.records + 3 < 2 ^ 32 := by
            have h1 := length_le_stringBytes args
            have h2 := length_le_stringBytes envs
            rw [hrec, records_append, List.length_append, records_length, records_length]
            unfold ncargs at hmax
            lia
          obtain ⟨hwrote, hsize, hheld⟩ := execSpoolAlloc_wrote hinv hpool hsmall hnone halloc
          exact saveWrite_saved hay hac hat hab has hey hec het heb hes hmax hwrote (hsize.trans hrec) hheld
        constructor
        · refine execSpoolAlloc_avoids.bind fun ⟨sp₁, σ₁⟩ halloc => ?_
          cases sp₁ with
          | none => exact .ok _
          | some sp₁ =>
            obtain ⟨epp, σ', hsave, _⟩ := hgo sp₁ σ₁ halloc
            simp only [hsave]
            exact .ok _
        · intro epp σ' hsaved
          obtain ⟨⟨sp₁, σ₁⟩, halloc, hthen⟩ := bind_ok hsaved
          cases sp₁ with
          | none => cases hthen
          | some sp₁ =>
            obtain ⟨epp', σ'', hsave, hres⟩ := hgo sp₁ σ₁ halloc
            simp only [hsave] at hthen
            cases hthen
            exact ⟨args, envs, execArgIterNext_supplied hay hac, execEnvIterNext_pointers hey hec, hres⟩

end

end DiscoBSD.Exec
