import DiscoBSD.Vis.Text

/-!
# Reading visible text back

The encodings of a byte have few shapes, and the state machine takes each of them back to the byte. **Only `\0` leaves
it waiting**, and there the next byte does not begin with an octal digit.
-/

set_option autoImplicit false

namespace DiscoBSD.Vis

open Lib

/-! ## The text -/

/-- The text of a byte string. -/
def visText (flags : UInt32) : List UInt8 → List UInt8
  | [] => []
  | character :: rest => encodeByte character flags (nextOf rest) ++ visText flags rest

theorem measure_spec {room : ℕ} {flags : UInt32} (source : List UInt8) {i : ℕ} (hi : i < room) :
    measure room flags source i =
      if i + (visText flags source).length < room then some (i + (visText flags source).length) else none := by
  induction source generalizing i with
  | nil =>
    rw [measure, visText, List.length_nil, Nat.add_zero, if_pos hi]
  | cons c rest ih =>
    rw [measure, visText, List.length_append]
    by_cases hlong : (encodeByte c flags (nextOf rest)).length ≥ room - i
    · rw [if_pos hlong, if_neg (by omega)]
    · rw [if_neg hlong, ih (by omega), Nat.add_assoc]

theorem commit_spec {flags : UInt32} (source : List UInt8) (m : Mem) (i : ℕ) :
    commit flags source (m, i) = (writeAt m i (visText flags source), i + (visText flags source).length) := by
  induction source generalizing m i with
  | nil =>
    rw [commit, visText, writeAt_nil]
    rfl
  | cons c rest ih =>
    rw [commit, visText, writeAt_append, List.length_append, ← Nat.add_assoc]
    exact ih ..

/-- The text and its NUL are written where they fit. -/
theorem encodeString_spec (destination : Mem) (room : ℕ) (source : List UInt8) (flags : UInt32) :
    encodeString destination room source flags =
      if (visText flags source).length < room then
        ⟨writeAt destination 0 (visText flags source ++ [0]), int (visText flags source).length, none⟩
      else noSpace destination := by
  by_cases hzero : room = 0
  · rw [encodeString, if_pos hzero, if_neg (by omega)]
  · rw [encodeString, if_neg hzero, measure_spec source (Nat.pos_of_ne_zero hzero), Nat.zero_add]
    by_cases hfits : (visText flags source).length < room
    · rw [if_pos hfits, if_pos hfits]
      rw [commit_spec, writeAt_append, Nat.zero_add]
    · rw [if_neg hfits, if_neg hfits]

/-! ## Shapes -/

/-- How `encode_byte` writes a byte where backslashes are on. -/
inductive Shape (c next : UInt8) : List UInt8 → Prop
  | plain : c ≠ backslash → c ≠ 0 → Shape c next [c]
  | slash : c = backslash → Shape c next [c, backslash]
  | letter {l : UInt8} : escapeCharacter c = some l → Shape c next [backslash, l]
  | nul : c = 0 → isoctal next = false → Shape c next [backslash, chr '0']
  | octal : Shape c next (octal c)
  | ctrl : c &&& 0x80 = 0 → c < 0x20 ∨ c = 0x7f → Shape c next (backslash :: caret c)
  | meta' : c &&& 0x80 ≠ 0 → Shape c next (backslash :: chr 'M' :: caret (c &&& 0x7f))

theorem plain_ne_zero {c : UInt8} {flags : UInt32} (h : Plain c flags) : c ≠ 0 := by
  rintro rfl
  rcases h with ⟨h, -⟩ | ⟨-, h⟩ | ⟨-, h⟩ | ⟨-, h⟩ | ⟨-, h | h | h⟩
  all_goals exact absurd h (by decide)

/-- What is neither printing nor a blank is a control character or has the meta bit. -/
theorem control_of_not_plain : ∀ c : UInt8, ¬(chr '!' ≤ c ∧ c ≤ chr '~') → c &&& 0x7f ≠ 0x20 → c &&& 0x80 = 0 →
    c < 0x20 ∨ c = 0x7f :=
  forall_byte (by decide +kernel)

theorem encodeByte_shape (c : UInt8) (flags : UInt32) (next : UInt8) (hflags : flags &&& visNoslash = 0) :
    Shape c next (encodeByte c flags next) := by
  rw [encodeByte]
  by_cases hplain : Plain c flags
  · rw [if_pos hplain]
    by_cases hslash : c = backslash
    · rw [if_pos ⟨hslash, hflags⟩]
      exact .slash hslash
    · rw [if_neg fun h => hslash h.1]
      exact .plain hslash (plain_ne_zero hplain)
  · rw [if_neg hplain]
    match hletter : if flags &&& visCstyle ≠ 0 then escapeCharacter c else none with
    | some l =>
      refine .letter ?_
      split at hletter
      · exact hletter
      · cases hletter
    | none =>
      dsimp only
      split
      next hnul =>
        cases hnext : isoctal next
        · exact .nul hnul.2 hnext
        · rw [hnul.2]
          exact .octal
      next =>
        split
        next => exact .octal
        next hoctal =>
          rw [List.singleton_append]
          by_cases hmeta : c &&& 0x80 = 0
          · rw [if_neg (not_not_intro hmeta)]
            refine .ctrl hmeta (control_of_not_plain c (fun h => hplain (.inl h)) (fun h => hoctal (.inl h)) hmeta)
          · rw [if_pos hmeta]
            exact .meta' hmeta

/-! ## The state machine -/

/-- The decoder with `cp` already at the place it writes. -/
def holding (m : Mem) (i : ℕ) (cp : UInt8) (state : State) : Decoder := ⟨Function.update m i cp, i, state⟩

section

variable {m : Mem} {i : ℕ} {cp cp' c : UInt8} {s s' : State}

theorem holding_self : (⟨m, i, s⟩ : Decoder) = holding m i (m i) s := by
  rw [holding, Function.update_eq_self]

theorem again_valid (h : unvis cp c s = (.valid, cp', s')) :
    again (holding m i cp s) c = .ok ⟨Function.update m i cp', i + 1, s'⟩ := by
  rw [again]
  simp only [holding]
  split <;> simp_all

theorem again_more (h : unvis cp c s = (.more, cp', s')) : again (holding m i cp s) c = .ok (holding m i cp' s') := by
  rw [again]
  simp only [holding]
  split <;> simp_all

theorem again_push (h : unvis cp c s = (.validpush, cp', s')) :
    again (holding m i cp s) c = again ⟨Function.update m i cp', i + 1, s'⟩ c := by
  rw [again]
  simp only [holding]
  split <;> simp_all

variable {src : List UInt8}

theorem loop_valid (hc : c ≠ 0) (h : unvis cp c s = (.valid, cp', s')) :
    unvisLoop (c :: src) (holding m i cp s) = unvisLoop src ⟨Function.update m i cp', i + 1, s'⟩ := by
  rw [unvisLoop, if_neg hc, again_valid h]

theorem loop_more (hc : c ≠ 0) (h : unvis cp c s = (.more, cp', s')) :
    unvisLoop (c :: src) (holding m i cp s) = unvisLoop src (holding m i cp' s') := by
  rw [unvisLoop, if_neg hc, again_more h]

theorem loop_push (hc : c ≠ 0) (h : unvis cp c s = (.validpush, cp', s')) :
    unvisLoop (c :: src) (holding m i cp s) = unvisLoop (c :: src) ⟨Function.update m i cp', i + 1, s'⟩ := by
  rw [unvisLoop, if_neg hc, again_push h, unvisLoop, if_neg hc]

/-- A backslash opens an escape. -/
theorem loop_backslash : unvisLoop (backslash :: src) ⟨m, i, .sGround⟩ = unvisLoop src (holding m i 0 .sStart) := by
  rw [holding_self]
  exact loop_more (by decide) rfl

/-! ## One byte -/

theorem letter_back : ∀ c : UInt8, ∀ l ∈ escapeCharacter c, l ≠ 0 ∧ unvis 0 l .sStart = (.valid, c, .sGround) := by
  have hall : ∀ c : UInt8, (escapeCharacter c).all
      (fun l => decide (l ≠ 0 ∧ unvis 0 l .sStart = (.valid, c, .sGround))) = true := forall_byte (by decide +kernel)
  intro c l hl
  have h := hall c
  rw [Option.mem_def.mp hl] at h
  exact of_decide_eq_true h

/-- Three octal digits, of which the first is not seen as anything else. -/
theorem octal_back : ∀ c : UInt8, ∃ x y z : UInt8, octal c = [backslash, x, y, z] ∧ x ≠ 0 ∧ y ≠ 0 ∧ z ≠ 0 ∧
    unvis 0 x .sStart = (.more, x - chr '0', .sOctal2) ∧
      unvis (x - chr '0') y .sOctal2 = (.more, ((x - chr '0') <<< 3) + (y - chr '0'), .sOctal3) ∧
      unvis (((x - chr '0') <<< 3) + (y - chr '0')) z .sOctal3 = (.valid, c, .sGround) := by
  intro c
  refine ⟨_, _, _, rfl, ?_⟩
  revert c
  exact forall_byte (by decide +kernel)

/-- A character that has to be written with a caret. -/
theorem ctrl_back : ∀ c : UInt8, c &&& 0x80 = 0 → c < 0x20 ∨ c = 0x7f →
    ∃ x, caret c = [chr '^', x] ∧ x ≠ 0 ∧ ∀ cp ∈ [(0 : UInt8), 0x80], unvis cp x .sCtrl = (.valid, cp ||| c, .sGround) := by
  intro c hmeta hctrl
  refine ⟨_, if_pos hctrl, ?_, fun cp hcp => ?_⟩
  · revert c
    exact forall_byte (by decide +kernel)
  · rcases List.mem_cons.mp hcp with rfl | hcp
    · revert c
      exact forall_byte (by decide +kernel)
    · rw [List.mem_singleton.mp hcp]
      revert c
      exact forall_byte (by decide +kernel)

theorem meta_split : ∀ c : UInt8, c &&& 0x80 ≠ 0 → 0x80 ||| (c &&& 0x7f) = c :=
  forall_byte (by decide +kernel)

/-- What follows `\M`. -/
theorem meta_back : ∀ c : UInt8, c &&& 0x80 ≠ 0 → ∃ x y state, caret (c &&& 0x7f) = [x, y] ∧ x ≠ 0 ∧ y ≠ 0 ∧
    unvis 0x80 x .sMeta = (.more, 0x80, state) ∧ unvis 0x80 y state = (.valid, c, .sGround) := by
  intro c hmeta
  by_cases hctrl : c &&& 0x7f < 0x20 ∨ c &&& 0x7f = 0x7f
  · refine ⟨_, _, .sCtrl, if_pos hctrl, by decide, ?_, by decide, ?_⟩
    all_goals
      revert c
      exact forall_byte (by decide +kernel)
  · have hlow : c &&& 0x7f ≠ 0 := fun h => hctrl (.inl (h ▸ by decide))
    refine ⟨_, _, .sMeta1, if_neg hctrl, by decide, hlow, by decide, ?_⟩
    rw [unvis, meta_split c hmeta]

/-- Where a byte has been read. -/
theorem Shape.read {next : UInt8} {e : List UInt8} (h : Shape c next e) (src : List UInt8) :
    unvisLoop (e ++ src) ⟨m, i, .sGround⟩ = unvisLoop src ⟨Function.update m i c, i + 1, .sGround⟩ ∨
      (e = [backslash, chr '0'] ∧ c = 0 ∧ isoctal next = false ∧
        unvisLoop (e ++ src) ⟨m, i, .sGround⟩ = unvisLoop src (holding m i 0 .sOctal2)) := by
  cases h with
  | plain hslash hzero =>
    refine .inl ?_
    rw [List.singleton_append, holding_self]
    exact loop_valid hzero (by rw [unvis, if_neg hslash])
  | slash hslash =>
    subst hslash
    refine .inl (loop_backslash.trans ?_)
    exact loop_valid (by decide) rfl
  | letter hletter =>
    obtain ⟨hzero, hback⟩ := letter_back c _ hletter
    exact .inl (loop_backslash.trans (loop_valid hzero hback))
  | nul hzero hnext =>
    refine .inr ⟨rfl, hzero, hnext, loop_backslash.trans ?_⟩
    exact loop_more (by decide) rfl
  | octal =>
    obtain ⟨x, y, z, heq, hx, hy, hz, hfirst, hsecond, hthird⟩ := octal_back c
    rw [heq]
    refine .inl (loop_backslash.trans ?_)
    exact (loop_more hx hfirst).trans ((loop_more hy hsecond).trans (loop_valid hz hthird))
  | ctrl hmeta hctrl =>
    obtain ⟨x, heq, hx, hback⟩ := ctrl_back c hmeta hctrl
    rw [heq]
    refine .inl (loop_backslash.trans ((loop_more (by decide) rfl).trans ?_))
    have hlast := hback 0 (List.mem_cons_self ..)
    rw [UInt8.zero_or] at hlast
    exact loop_valid hx hlast
  | meta' hmeta =>
    obtain ⟨x, y, state, heq, hx, hy, hfirst, hsecond⟩ := meta_back c hmeta
    rw [heq]
    refine .inl (loop_backslash.trans ((loop_more (by decide) rfl).trans ?_))
    exact (loop_more hx hfirst).trans (loop_valid hy hsecond)

/-- An encoding has no NUL, and begins with the byte itself or with a backslash. -/
theorem Shape.chars {next : UInt8} {e : List UInt8} (h : Shape c next e) :
    (∀ x ∈ e, x ≠ 0) ∧ ∃ x xs, e = x :: xs ∧ (x = c ∨ x = backslash) := by
  cases h with
  | plain hslash hzero => exact ⟨by simpa using hzero, _, _, rfl, .inl rfl⟩
  | slash hslash =>
    subst hslash
    have hzero : backslash ≠ 0 := by decide
    exact ⟨by simpa using hzero, _, _, rfl, .inl rfl⟩
  | letter hletter =>
    have hzero := (letter_back c _ hletter).1
    exact ⟨by simpa using ⟨by decide, hzero⟩, _, _, rfl, .inr rfl⟩
  | nul hzero hnext => exact ⟨by simpa using ⟨by decide, by decide⟩, _, _, rfl, .inr rfl⟩
  | octal =>
    obtain ⟨x, y, z, heq, hx, hy, hz, -⟩ := octal_back c
    rw [heq]
    exact ⟨by simpa using ⟨by decide, hx, hy, hz⟩, _, _, rfl, .inr rfl⟩
  | ctrl hmeta hctrl =>
    obtain ⟨x, heq, hx, -⟩ := ctrl_back c hmeta hctrl
    rw [heq]
    exact ⟨by simpa using ⟨by decide, by decide, hx⟩, _, _, rfl, .inr rfl⟩
  | meta' hmeta =>
    obtain ⟨x, y, state, heq, hx, hy, -⟩ := meta_back c hmeta
    rw [heq]
    exact ⟨by simpa using ⟨by decide, by decide, hx, hy⟩, _, _, rfl, .inr rfl⟩

/-! ## The whole text -/

variable {flags : UInt32}

theorem visText_ne_zero (hflags : flags &&& visNoslash = 0) (source : List UInt8) : ∀ x ∈ visText flags source, x ≠ 0 := by
  induction source with
  | nil => exact fun x hx => absurd hx List.not_mem_nil
  | cons c rest ih =>
    intro x hx
    rcases List.mem_append.mp hx with hx | hx
    · exact (encodeByte_shape c flags _ hflags).chars.1 x hx
    · exact ih x hx

/-- A byte that is no octal digit has text that begins with none. -/
theorem visText_head (hflags : flags &&& visNoslash = 0) {c' : UInt8} {rest : List UInt8} (hnot : isoctal c' = false) :
    ∃ x xs, visText flags (c' :: rest) = x :: xs ∧ isoctal x = false ∧ x ≠ 0 := by
  obtain ⟨hzero, x, xs, heq, hx⟩ := (encodeByte_shape c' flags (nextOf rest) hflags).chars
  refine ⟨x, xs ++ visText flags rest, ?_, ?_, ?_⟩
  · rw [visText, heq, List.cons_append]
  · rcases hx with rfl | rfl
    · exact hnot
    · decide
  · exact hzero x (heq ▸ List.mem_cons_self ..)

/-- **The text is read back**, wherever the bytes are written. -/
theorem unvisLoop_text (hflags : flags &&& visNoslash = 0) (source tail : List UInt8) (m : Mem) (i : ℕ) :
    ∃ d, unvisLoop (visText flags source ++ 0 :: tail) ⟨m, i, .sGround⟩ = .ok d ∧
      (unvisFinish d).mem = writeAt m i source ∧ (unvisFinish d).dst = i + source.length := by
  induction source generalizing m i with
  | nil => exact ⟨_, rfl, (writeAt_nil m i).symm, rfl⟩
  | cons c rest ih =>
    have hnext := ih (Function.update m i c) (i + 1)
    rw [← writeAt_cons, Nat.add_assoc, Nat.add_comm 1] at hnext
    rw [visText, List.append_assoc]
    rcases (encodeByte_shape c flags (nextOf rest) hflags).read (m := m) (i := i) (visText flags rest ++ 0 :: tail) with
      hread | ⟨-, hzero, hoctal, hread⟩
    · rw [hread]
      exact hnext
    · -- The NUL waits for more digits.
      rw [hread]
      subst hzero
      cases rest with
      | nil =>
        refine ⟨_, rfl, ?_, rfl⟩
        rw [writeAt_cons, writeAt_nil]
        rfl
      | cons c' rest' =>
        obtain ⟨x, xs, heq, hnot, hx⟩ := @visText_head _ hflags c' rest' hoctal
        rw [heq, List.cons_append] at hnext ⊢
        rw [loop_push hx (by rw [unvis, hnot]; rfl : unvis _ x _ = (.validpush, 0, .sGround))]
        exact hnext

end

/-- **vis and unvis are inverse.** The text has no NUL; it is written where it fits with its NUL, and otherwise nothing
is; and whoever reads it from memory gets the byte string and its length. -/
theorem vis_inverse (flags : UInt32) (hflags : flags &&& visNoslash = 0) (source : List UInt8) :
    ∃ text : List UInt8, 0 ∉ text ∧
      (∀ destination, strvisx destination source flags =
        if text.length < 2 ^ 32 - 1 then ⟨writeAt destination 0 (text ++ [0]), int text.length, none⟩
        else noSpace destination) ∧
      (∀ destination room, strnvisx destination room source flags =
        if text.length + 1 ≤ room then ⟨writeAt destination 0 (text ++ [0]), int text.length, none⟩
        else noSpace destination) ∧
      ∀ destination output n, text.length < n →
        strunvis output (readAt (writeAt destination 0 (text ++ [0])) 0 n) =
          (writeAt output 0 (source ++ [0]), int source.length) := by
  refine ⟨visText flags source, fun h => visText_ne_zero hflags source 0 h rfl, fun destination => encodeString_spec ..,
    fun destination room => encodeString_spec .., fun destination output n hn => ?_⟩
  obtain ⟨k, rfl⟩ : ∃ k, n = (visText flags source ++ [0]).length + k := ⟨n - (visText flags source).length - 1, by
    rw [List.length_append, List.length_singleton]; omega⟩
  rw [readAt_add, readAt_writeAt, List.append_assoc, List.singleton_append]
  obtain ⟨d, hloop, hmem, hdst⟩ := unvisLoop_text hflags source
    (readAt (writeAt destination 0 (visText flags source ++ [0])) (0 + (visText flags source ++ [0]).length) k) output 0
  rw [strunvis, hloop]
  dsimp only
  rw [hmem, hdst, Nat.zero_add, writeAt_append, writeAt_cons, writeAt_nil, Nat.zero_add]

/-- A NUL before a digit, with C escapes. -/
theorem vis_inverse_nul : ∃ text : List UInt8, 0 ∉ text ∧ ∀ destination output n, text.length < n →
    strunvis output (readAt (writeAt destination 0 (text ++ [0])) 0 n) = (writeAt output 0 ([0, 0x37, 0] ++ [0]), int 3) := by
  obtain ⟨text, hnul, -, -, hback⟩ := vis_inverse visCstyle (by decide) [0, 0x37, 0]
  exact ⟨text, hnul, hback⟩

end DiscoBSD.Vis
