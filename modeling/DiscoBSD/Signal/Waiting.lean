import DiscoBSD.Signal.Sendsig
import DiscoBSD.Signal.Wait

/-!
# Why the wait does not end

`issignal` takes away what is ignored until it comes to a signal that has to act, and returns that one without
taking it away. It is `postsig` that does, and `postsig` is outside of the loop. So **a signal that has to act
and is not waited for stays pending through every turn of the loop**, and no turn sleeps.
-/

set_option autoImplicit false

namespace DiscoBSD.Signal

open DiscoBSD.Swap (Conf)

/-! ## Bits -/

theorem has_sigmask {w : Word} {sig : ℕ} (h₁ : 1 ≤ sig) (h₂ : sig ≤ 32) :
    has w (sigmask sig) = w.getLsbD (sig - 1) := by
  unfold has sigmask
  rw [← BitVec.twoPow_eq, BitVec.and_twoPow]
  cases hbit : w.getLsbD (sig - 1) with
  | false => exact decide_eq_false (not_not.mpr rfl)
  | true =>
    refine decide_eq_true fun hzero => ?_
    have hself := congrArg (fun v : Word => v.getLsbD (sig - 1)) hzero
    simp only [if_true, BitVec.getLsbD_twoPow] at hself
    rw [decide_eq_true (show sig - 1 < 32 by omega)] at hself
    simp at hself

theorem getLsbD_sigmask {sig i : ℕ} (h₂ : sig ≤ 32) (h₁ : 1 ≤ sig) :
    (sigmask sig).getLsbD i = decide (sig - 1 = i) := by
  rw [sigmask, ← BitVec.twoPow_eq, BitVec.getLsbD_twoPow, decide_eq_true (show sig - 1 < 32 by omega)]
  rfl

/-- A word that is not 0 has a bit. -/
theorem exists_bit {w : Word} (h : w ≠ 0) : ∃ i < 32, w.getLsbD i = true := by
  by_contra hnone
  refine h (BitVec.eq_of_getLsbD_eq fun i hi => ?_)
  rw [Bool.eq_false_iff.mpr fun hbit => hnone ⟨i, hi, hbit⟩]
  exact BitVec.getLsbD_zero.symm

theorem ne_zero_of_bit {w : Word} {i : ℕ} (h : w.getLsbD i = true) : w ≠ 0 := by
  rintro rfl
  simp at h

/-- The first bit from the bottom. -/
theorem ffsFrom_spec (n cnt : ℕ) {mask : Word} (h : ∃ i < n, mask.getLsbD i = true) :
    ∃ i < n, ffsFrom n cnt mask = cnt + i ∧ mask.getLsbD i = true ∧ ∀ j < i, mask.getLsbD j = false := by
  induction n generalizing cnt mask with
  | zero =>
    obtain ⟨i, hi, _⟩ := h
    exact absurd hi (Nat.not_lt_zero i)
  | succ n ih =>
    have hlow : mask &&& 1#32 ≠ 0 ↔ mask.getLsbD 0 = true := by
      have hone := @has_sigmask mask 1 (Nat.le_refl 1) (by decide)
      rw [show (1 : ℕ) - 1 = 0 from rfl] at hone
      rw [← hone, has, decide_eq_true_iff]
      exact Iff.rfl
    unfold ffsFrom
    by_cases hbit : mask.getLsbD 0 = true
    · rw [if_pos (hlow.mpr hbit)]
      exact ⟨0, Nat.succ_pos n, rfl, hbit, fun j hj => absurd hj (Nat.not_lt_zero j)⟩
    · rw [if_neg (hlow.not.mpr hbit)]
      have hshift : ∀ i, (mask >>> 1).getLsbD i = mask.getLsbD (i + 1) := fun i => by
        rw [BitVec.getLsbD_ushiftRight, Nat.add_comm]
      obtain ⟨i, hi, hset⟩ := h
      obtain ⟨k, rfl⟩ : ∃ k, i = k + 1 := Nat.exists_eq_succ_of_ne_zero fun h0 => hbit (h0 ▸ hset)
      obtain ⟨m, hm, hffs, hfirst, hbelow⟩ := ih (cnt + 1) ⟨k, by omega, by rw [hshift]; exact hset⟩
      refine ⟨m + 1, by omega, by omega, by rw [← hshift]; exact hfirst, fun j hj => ?_⟩
      cases j with
      | zero => exact Bool.eq_false_iff.mpr hbit
      | succ j => rw [← hshift]; exact hbelow j (by omega)

/-- `ffs` finds the lowest signal. -/
theorem ffs_spec {mask : Word} (h : mask ≠ 0) :
    1 ≤ ffs mask ∧ ffs mask ≤ 32 ∧ mask.getLsbD (ffs mask - 1) = true ∧
      ∀ i < ffs mask - 1, mask.getLsbD i = false := by
  obtain ⟨i, hi, hffs, hbit, hbelow⟩ := ffsFrom_spec 32 1 (exists_bit h)
  rw [ffs, if_neg h, hffs, Nat.add_comm, Nat.add_sub_cancel]
  exact ⟨by omega, by omega, hbit, hbelow⟩

/-! ## Signals that have to act -/

/-- The signal is pending, not held, not forgotten, and it kills the process or has a handler. -/
def Waiter.deliverable (w : Waiter) (sig : ℕ) : Prop :=
  1 ≤ sig ∧ sig ≤ 32 ∧ w.pending.getLsbD (sig - 1) = true ∧
    (has w.p_sigignore (sigmask sig) = true → w.traced = true) ∧ w.disposition sig = .take

/-- The same process with some signals less, but for this one. -/
structure Eased (sig : ℕ) (w w' : Waiter) : Prop where
  same : w' = w.setSig w'.p_sig
  fewer : ∀ i, w'.p_sig.getLsbD i = true → w.p_sig.getLsbD i = true
  still : w'.deliverable sig

section
variable {w w' : Waiter} {sig k : ℕ}

@[simp] theorem setSig_p_sig (p_sig : Word) : (w.setSig p_sig).p_sig = p_sig := rfl

@[simp] theorem setSig_setSig (a b : Word) : (w.setSig a).setSig b = w.setSig b := rfl

theorem setSig_self : w.setSig w.p_sig = w := rfl

theorem Eased.refl (h : w.deliverable sig) : Eased sig w w := ⟨rfl, fun _ h => h, h⟩

theorem Eased.trans {w₁ w₂ w₃ : Waiter} (h : Eased sig w₁ w₂) (h' : Eased sig w₂ w₃) : Eased sig w₁ w₃ := by
  refine ⟨?_, fun i hi => h.fewer i (h'.fewer i hi), h'.still⟩
  have h₂ := h'.same
  rw [h.same, setSig_setSig] at h₂
  exact h₂

/-- The signals that `issignal` does not look at. -/
def Waiter.withheld (w : Waiter) : Word := w.p_sigmask ||| if w.svfork then stopsigmask else 0

theorem pending_bit (i : ℕ) : w.pending.getLsbD i = (w.p_sig.getLsbD i && !w.withheld.getLsbD i) := by
  by_cases hi : i < 32
  · unfold Waiter.pending Waiter.withheld
    simp only
    split
    · rw [BitVec.getLsbD_and, BitVec.getLsbD_and, BitVec.getLsbD_not, BitVec.getLsbD_not, BitVec.getLsbD_or,
        decide_eq_true hi, Bool.true_and, Bool.true_and, Bool.not_or, Bool.and_assoc]
    · rw [BitVec.getLsbD_and, BitVec.getLsbD_not, decide_eq_true hi, Bool.true_and]
      exact congrArg (fun v : Word => w.p_sig.getLsbD i && !v.getLsbD i) (BitVec.or_zero).symm
  · rw [BitVec.getLsbD_of_ge _ _ (by omega), BitVec.getLsbD_of_ge _ _ (by omega), Bool.false_and]

theorem pending_le (i : ℕ) (h : w.pending.getLsbD i = true) : w.p_sig.getLsbD i = true := by
  rw [pending_bit, Bool.and_eq_true] at h
  exact h.1

theorem clear_bit (h₁ : 1 ≤ k) (h₂ : k ≤ 32) (i : ℕ) :
    (w.clear k).p_sig.getLsbD i = (w.p_sig.getLsbD i && !decide (k - 1 = i)) := by
  unfold Waiter.clear
  rw [setSig_p_sig, BitVec.getLsbD_and, BitVec.getLsbD_not, getLsbD_sigmask h₂ h₁]
  by_cases hi : i < 32
  · rw [decide_eq_true hi, Bool.true_and]
  · rw [BitVec.getLsbD_of_ge _ _ (by omega), Bool.false_and, Bool.false_and]

/-- Taking away a signal. -/
theorem clear_pending (h₁ : 1 ≤ k) (h₂ : k ≤ 32) (i : ℕ) :
    (w.clear k).pending.getLsbD i = (w.pending.getLsbD i && !decide (k - 1 = i)) := by
  rw [pending_bit, pending_bit, clear_bit h₁ h₂, Bool.and_right_comm]
  rfl

theorem Waiter.deliverable.clear (h : w.deliverable sig) (h₁ : 1 ≤ k) (h₂ : k ≤ 32) (hne : k ≠ sig) :
    Eased sig w (w.clear k) := by
  obtain ⟨hlow, hhigh, hbit, hheard, htake⟩ := h
  refine ⟨rfl, fun i hi => ?_, hlow, hhigh, ?_, hheard, htake⟩
  · rw [clear_bit h₁ h₂, Bool.and_eq_true] at hi
    exact hi.1
  · rw [clear_pending h₁ h₂, hbit, decide_eq_false (by omega)]
    rfl

/-! ## issignal -/

theorem issignal_succ (turns : ℕ) (rs : List Resume) (hne : w.pending ≠ 0) :
    w.issignal (turns + 1) rs =
      if has w.p_sigignore (sigmask (ffs w.pending)) ∧ w.traced = false then
        (w.clear (ffs w.pending)).issignal turns rs
      else if w.traced = true ∧ w.svfork = false then
        match rs with
        | [] => none
        | r :: rs =>
          let w := { w.setSig r.p_sig with traced := r.traced }
          if r.ptracesig = 0 then w.issignal turns rs
          else
            let w := w.setSig (w.p_sig ||| sigmask r.ptracesig)
            if has w.p_sigmask (sigmask r.ptracesig) ∨ r.traced = false then w.issignal turns rs
            else w.act (fun w rs => w.issignal turns rs) r.ptracesig rs
      else w.act (fun w rs => w.issignal turns rs) (ffs w.pending) rs :=
  if_neg hne

/-- With no resumption used but those given, `issignal` returns a signal and leaves the process eased. -/
def Returns (sig : ℕ) (m : ℕ) (w : Waiter) : Prop :=
  ∃ rs sig' w', sig' ≠ 0 ∧ Eased sig w w' ∧ ∀ turns, m ≤ turns → w.issignal turns rs = some (sig', w', [])

/-- **`issignal` comes to the signal that has to act, or to one before it.** The environment gives a tracer's
    signals back and lets a stopped process go on. -/
theorem issignal_returns (m : ℕ) {w : Waiter} {k : ℕ} (hm : 32 ≤ m + k)
    (hbelow : ∀ i < k, w.pending.getLsbD i = false) (h : w.deliverable sig) : Returns sig m w := by
  induction m generalizing w k with
  | zero =>
    obtain ⟨hlow, hhigh, hbit, _, _⟩ := h
    rw [hbelow (sig - 1) (by omega)] at hbit
    cases hbit
  | succ m ih =>
    have hne : w.pending ≠ 0 := ne_zero_of_bit h.2.2.1
    obtain ⟨hlow, hhigh, hbit, hfirst⟩ := ffs_spec hne
    generalize hffs : ffs w.pending = s at *
    have hk : k < s := by
      by_contra hle
      rw [hbelow (s - 1) (by omega)] at hbit
      cases hbit
    -- A signal that is taken away is not the one, and the next turn looks above it.
    have hdrop : s ≠ sig → Returns sig m (w.clear s) := fun hother =>
      ih (k := s) (by omega) (fun i hi => by
        rw [clear_pending hlow hhigh]
        by_cases hlast : s - 1 = i
        · rw [decide_eq_true hlast, Bool.not_true, Bool.and_false]
        · rw [hfirst i (by omega), Bool.false_and]) (h.clear hlow hhigh hother).still
    -- What the switch makes of the signal, traced or not.
    have hact : ∃ rs sig' w', sig' ≠ 0 ∧ Eased sig w w' ∧ ∀ turns, m ≤ turns →
        w.act (fun w rs => w.issignal turns rs) s rs = some (sig', w', []) := by
      cases hdisp : w.disposition s with
      | take =>
        refine ⟨[], s, w, by omega, .refl h, fun turns _ => ?_⟩
        simp only [Waiter.act, hdisp]
      | drop =>
        have hother : s ≠ sig := by
          rintro rfl
          rw [h.2.2.2.2] at hdisp
          cases hdisp
        obtain ⟨rs, sig', w', hsig', heased, hcall⟩ := hdrop hother
        refine ⟨rs, sig', w', hsig', (h.clear hlow hhigh hother).trans heased, fun turns hturns => ?_⟩
        simp only [Waiter.act, hdisp]
        exact hcall turns hturns
      | stop =>
        have hother : s ≠ sig := by
          rintro rfl
          rw [h.2.2.2.2] at hdisp
          cases hdisp
        obtain ⟨rs, sig', w', hsig', heased, hcall⟩ := hdrop hother
        refine ⟨⟨w.p_sig, 0, w.traced⟩ :: rs, sig', w', hsig', (h.clear hlow hhigh hother).trans heased,
          fun turns hturns => ?_⟩
        simp only [Waiter.act, hdisp, setSig_self]
        exact hcall turns hturns
    by_cases hforgotten : has w.p_sigignore (sigmask s) = true ∧ w.traced = false
    · have hother : s ≠ sig := by
        rintro rfl
        rw [h.2.2.2.1 hforgotten.1] at hforgotten
        cases hforgotten.2
      obtain ⟨rs, sig', w', hsig', heased, hcall⟩ := hdrop hother
      refine ⟨rs, sig', w', hsig', (h.clear hlow hhigh hother).trans heased, fun turns hturns => ?_⟩
      obtain ⟨t, rfl⟩ := Nat.exists_eq_add_of_le' (Nat.le_trans (Nat.succ_le_succ (Nat.zero_le m)) hturns)
      rw [issignal_succ _ _ hne, hffs]
      simp only [if_pos hforgotten]
      exact hcall t (by omega)
    · by_cases htraced : w.traced = true ∧ w.svfork = false
      · obtain ⟨rs, sig', w', hsig', heased, hcall⟩ := hact
        refine ⟨⟨w.p_sig, s, true⟩ :: rs, sig', w', hsig', heased, fun turns hturns => ?_⟩
        obtain ⟨t, rfl⟩ := Nat.exists_eq_add_of_le' (Nat.le_trans (Nat.succ_le_succ (Nat.zero_le m)) hturns)
        have hback : { w.setSig w.p_sig with traced := true } = w := by
          rw [← htraced.1]
          rfl
        have hset := pending_le _ hbit
        have hthere : w.setSig (w.p_sig ||| sigmask s) = w := by
          have hor : w.p_sig ||| sigmask s = w.p_sig := by
            refine BitVec.eq_of_getLsbD_eq fun i hi => ?_
            rw [BitVec.getLsbD_or, getLsbD_sigmask hhigh hlow]
            by_cases hi : s - 1 = i
            · subst hi
              rw [hset, Bool.true_or]
            · rw [decide_eq_false hi, Bool.or_false]
          rw [hor, setSig_self]
        have hheld : has w.p_sigmask (sigmask s) = false := by
          rw [has_sigmask hlow hhigh]
          rw [pending_bit, Waiter.withheld, BitVec.getLsbD_or, Bool.not_or] at hbit
          cases hmask : w.p_sigmask.getLsbD (s - 1) with
          | false => rfl
          | true => rw [hmask] at hbit; simp at hbit
        rw [issignal_succ _ _ hne, hffs]
        simp only [if_neg hforgotten, if_pos htraced, if_neg (show s ≠ 0 by omega)]
        rw [hback, setSig_p_sig, hthere, hheld, if_neg (by simp)]
        exact hcall t (by omega)
      · obtain ⟨rs, sig', w', hsig', heased, hcall⟩ := hact
        refine ⟨rs, sig', w', hsig', heased, fun turns hturns => ?_⟩
        obtain ⟨t, rfl⟩ := Nat.exists_eq_add_of_le' (Nat.le_trans (Nat.succ_le_succ (Nat.zero_le m)) hturns)
        rw [issignal_succ _ _ hne, hffs]
        simp only [if_neg hforgotten, if_neg htraced]
        exact hcall t (by omega)

/-! ## The loop -/

/-- **`tsleep` returns at once, and nothing that has to act is gone.** -/
theorem tsleep_returns (h : w.deliverable sig) :
    ∃ nap err w', w.tsleep nap = some (err, w') ∧ Eased sig w w' := by
  obtain ⟨rs, sig', w', hsig', heased, hcall⟩ :=
    issignal_returns 32 (k := 0) (by decide) (fun i hi => absurd hi (Nat.not_lt_zero i)) h
  have hbit := h.2.2.1
  rw [pending_bit, Waiter.withheld, BitVec.getLsbD_or, Bool.not_or, Bool.and_eq_true, Bool.and_eq_true] at hbit
  have hlook : ¬(w.p_sig = 0 ∨ (w.traced = false ∧ w.p_sig &&& ~~~w.p_sigmask = 0)) := by
    rintro (hzero | ⟨_, hzero⟩)
    · exact ne_zero_of_bit hbit.1 hzero
    · refine ne_zero_of_bit (i := sig - 1) ?_ hzero
      have hhigh := h.2.1
      have hlow := h.1
      rw [BitVec.getLsbD_and, BitVec.getLsbD_not, decide_eq_true (show sig - 1 < 32 by omega), hbit.1, hbit.2.1]
      rfl
  refine ⟨⟨rs, false, 0, [], id⟩, w'.interrupted sig', w', ?_, heased⟩
  have hcursig : w.cursig rs = some (sig', w', []) := by
    rw [Waiter.cursig, if_neg hlook]
    exact hcall _ (by omega)
  simp only [Waiter.tsleep, hcursig, Option.bind_eq_bind, Option.bind_some, if_pos hsig', id]
  rfl

/-- **The loop never ends by itself with a signal that has to act and none that is waited for.** -/
theorem waitLoop_stuck {wanted : Word} (n : ℕ) (h : w.deliverable sig) (hnone : wanted &&& w.p_sig = 0) :
    ∃ naps : List Nap, naps.length = n ∧ w.waitLoop wanted naps = none := by
  induction n generalizing w with
  | zero =>
    refine ⟨[], rfl, ?_⟩
    rw [Waiter.waitLoop, if_neg (not_not.mpr hnone)]
  | succ n ih =>
    obtain ⟨nap, err, w', hcall, heased⟩ := tsleep_returns h
    have hnone' : wanted &&& w'.p_sig = 0 := by
      refine BitVec.eq_of_getLsbD_eq fun i hi => ?_
      have hi' := congrArg (fun v : Word => v.getLsbD i) hnone
      simp only [BitVec.getLsbD_and] at hi' ⊢
      cases hbit : w'.p_sig.getLsbD i with
      | false => rw [Bool.and_false]; exact BitVec.getLsbD_zero.symm
      | true => rw [heased.fewer i hbit] at hi'; exact hi'
    obtain ⟨naps, hlen, hstuck⟩ := ih heased.still hnone'
    refine ⟨nap :: naps, by rw [List.length_cons, hlen], ?_⟩
    rw [Waiter.waitLoop, if_neg (not_not.mpr hnone)]
    simp only [hcall, Option.bind_some]
    exact hstuck

end

/-! ## The call -/

/-- What the call is for. A signal of the set that is pending is returned and taken away, and nothing else; and a
    signal outside of the set that has to act gets out of the loop, whatever happens from then on. -/
structure LeavesLoop (cfg : Conf) (w : Waiter) (set sig wanted : Word) : Prop where
  awaited : wanted &&& w.p_sig ≠ 0 → ∃ signo, 1 ≤ signo ∧ signo ≤ 32 ∧ has (wanted &&& w.p_sig) (sigmask signo) = true ∧
    ∀ naps, w.sigwait cfg set sig wanted naps =
      some ((w.clear signo).setError .none, some signo)
  outside : (∃ s, w.deliverable s ∧ has wanted (sigmask s) = false) →
    ∃ n, ∀ naps : List Nap, n ≤ naps.length → (w.sigwait cfg set sig wanted naps).isSome = true

/-- A signal of the set is pending and neither `SIGKILL` nor `SIGSTOP` is, or the other way around; or none of
    them is pending, and nothing has to act. -/
def WaitEnds (w : Waiter) (wanted : Word) : Prop :=
  if w.p_sig &&& sigcantmask ≠ 0 then wanted &&& w.p_sig = 0
  else wanted &&& w.p_sig ≠ 0 ∨ ∀ s, ¬w.deliverable s

section
variable {cfg : Conf} {w : Waiter} {set sig wanted : Word}

/-- The two pointers are good. -/
structure GoodCall (cfg : Conf) (w : Waiter) (set sig : Word) : Prop where
  set_ne : set ≠ 0
  sig_ne : sig ≠ 0
  set_read : baduaddrSpan cfg w.p_large set 4 = false
  sig_written : baduaddrSpan cfg w.p_large sig 4 = false

theorem sigwait_loop (h : GoodCall cfg w set sig) (naps : List Nap) :
    w.sigwait cfg set sig wanted naps =
      (w.waitLoop (wanted ||| sigcantmask) naps).map fun (sigsavail, w) => w.waited cfg sig sigsavail := by
  rw [Waiter.sigwait, if_neg (not_or.mpr ⟨h.set_ne, h.sig_ne⟩), h.set_read]
  rfl

/-- One of them is there already: the loop is not entered. -/
theorem waitLoop_now (h : wanted &&& w.p_sig ≠ 0) (naps : List Nap) :
    w.waitLoop wanted naps = some (wanted &&& w.p_sig, w) := by
  cases naps <;> rw [Waiter.waitLoop, if_pos h]

theorem or_and (a b c : Word) : (a ||| b) &&& c = (a &&& c) ||| (b &&& c) := by
  rw [BitVec.and_comm, BitVec.and_or_distrib_left, BitVec.and_comm c a, BitVec.and_comm c b]

theorem or_eq_zero {a b : Word} : a ||| b = 0 ↔ a = 0 ∧ b = 0 := by
  constructor
  · intro h
    constructor
    · by_contra hne
      obtain ⟨i, _, hbit⟩ := exists_bit hne
      exact ne_zero_of_bit (i := i) (by rw [BitVec.getLsbD_or, hbit, Bool.true_or]) h
    · by_contra hne
      obtain ⟨i, _, hbit⟩ := exists_bit hne
      exact ne_zero_of_bit (i := i) (by rw [BitVec.getLsbD_or, hbit, Bool.or_true]) h
  · rintro ⟨rfl, rfl⟩
    rfl

/-- With one that cannot be waited for, the call is interrupted. -/
theorem sigwait_interrupted (h : GoodCall cfg w set sig) (hcant : w.p_sig &&& sigcantmask ≠ 0) (naps : List Nap) :
    w.sigwait cfg set sig wanted naps = some (w.setError .eintr, none) := by
  have hsome : (wanted ||| sigcantmask) &&& w.p_sig ≠ 0 := by
    rw [or_and, Ne, or_eq_zero, BitVec.and_comm sigcantmask]
    exact fun hzero => hcant hzero.2
  have hstill : (wanted ||| sigcantmask) &&& w.p_sig &&& sigcantmask ≠ 0 := by
    have hsame : (wanted ||| sigcantmask) &&& w.p_sig &&& sigcantmask = w.p_sig &&& sigcantmask := by
      refine BitVec.eq_of_getLsbD_eq fun i _ => ?_
      simp only [BitVec.getLsbD_and, BitVec.getLsbD_or]
      cases w.p_sig.getLsbD i <;> cases wanted.getLsbD i <;> cases sigcantmask.getLsbD i <;> rfl
    rw [hsame]
    exact hcant
  rw [sigwait_loop h, waitLoop_now hsome, Option.map_some]
  exact congrArg some (if_pos hstill)

/-- Without one, the lowest signal of the set is returned. -/
theorem sigwait_returns (h : GoodCall cfg w set sig) (hcant : w.p_sig &&& sigcantmask = 0)
    (hsome : wanted &&& w.p_sig ≠ 0) (naps : List Nap) :
    w.sigwait cfg set sig wanted naps =
      some ((w.clear (ffs (wanted &&& w.p_sig))).setError .none, some (ffs (wanted &&& w.p_sig))) := by
  have hcant' : sigcantmask &&& w.p_sig = 0 := by rw [BitVec.and_comm]; exact hcant
  have heq : (wanted ||| sigcantmask) &&& w.p_sig = wanted &&& w.p_sig := by
    rw [or_and, hcant']
    exact BitVec.or_zero
  have hnone : wanted &&& w.p_sig &&& sigcantmask = 0 := by
    rw [BitVec.and_assoc, hcant]
    exact BitVec.and_zero
  have hwritten : baduaddrSpan cfg (w.clear (ffs (wanted &&& w.p_sig))).p_large sig 4 = false := h.sig_written
  rw [sigwait_loop h, waitLoop_now (by rw [heq]; exact hsome), heq, Option.map_some]
  simp only [Waiter.waited, if_neg (not_not.mpr hnone), hwritten]
  rfl

theorem leaves_of_ends (h : GoodCall cfg w set sig) (hends : WaitEnds w wanted) :
    LeavesLoop cfg w set sig wanted := by
  unfold WaitEnds at hends
  split at hends
  · rename_i hcant
    refine ⟨fun hsome => absurd hends hsome, fun _ => ⟨0, fun naps _ => ?_⟩⟩
    rw [sigwait_interrupted h hcant]
    rfl
  · rename_i hcant
    have hcant := not_not.mp hcant
    rcases hends with hsome | hquiet
    · refine ⟨fun _ => ?_, fun _ => ⟨0, fun naps _ => ?_⟩⟩
      · obtain ⟨hlow, hhigh, hbit, _⟩ := ffs_spec hsome
        refine ⟨ffs (wanted &&& w.p_sig), hlow, hhigh, ?_, fun naps => sigwait_returns h hcant hsome naps⟩
        rw [has_sigmask hlow hhigh]
        exact hbit
      · rw [sigwait_returns h hcant hsome]
        rfl
    · by_cases hsome : wanted &&& w.p_sig = 0
      · exact ⟨fun hne => absurd hsome hne, fun ⟨s, hs, _⟩ => absurd hs (hquiet s)⟩
      · refine ⟨fun _ => ?_, fun ⟨s, hs, _⟩ => absurd hs (hquiet s)⟩
        obtain ⟨hlow, hhigh, hbit, _⟩ := ffs_spec hsome
        refine ⟨ffs (wanted &&& w.p_sig), hlow, hhigh, ?_, fun naps => sigwait_returns h hcant hsome naps⟩
        rw [has_sigmask hlow hhigh]
        exact hbit

theorem ends_of_leaves (h : GoodCall cfg w set sig) (hleaves : LeavesLoop cfg w set sig wanted) :
    WaitEnds w wanted := by
  unfold WaitEnds
  split
  · rename_i hcant
    by_contra hsome
    obtain ⟨signo, _, _, _, hcall⟩ := hleaves.awaited hsome
    have hnone := congrArg (Option.map Prod.snd) (hcall [])
    rw [sigwait_interrupted h hcant] at hnone
    cases hnone
  · rename_i hcant
    have hcant := not_not.mp hcant
    by_cases hsome : wanted &&& w.p_sig = 0
    · refine .inr fun s hs => ?_
      have hout : has wanted (sigmask s) = false := by
        rw [has_sigmask hs.1 hs.2.1]
        have hbit := congrArg (fun v : Word => v.getLsbD (s - 1)) hsome
        simp only [BitVec.getLsbD_and, pending_le (s - 1) hs.2.2.1, Bool.and_true] at hbit
        exact hbit.trans BitVec.getLsbD_zero
      obtain ⟨n, hn⟩ := hleaves.outside ⟨s, hs, hout⟩
      have hzero : (wanted ||| sigcantmask) &&& w.p_sig = 0 := by
        rw [or_and, hsome, BitVec.and_comm sigcantmask, hcant]
        rfl
      obtain ⟨naps, hlen, hstuck⟩ := waitLoop_stuck n hs hzero
      have hleft := hn naps (Nat.le_of_eq hlen.symm)
      rw [sigwait_loop h, hstuck] at hleft
      cases hleft
    · exact .inl hsome

end

/-- **`sigwait` keeps its promises exactly when a signal that cannot be caught does not stand in the way of one of the
    set, and there is one of the set, one that cannot be caught, or nothing that has to act.** -/
theorem sigwait_leaves (cfg : Conf) (w : Waiter) (set sig wanted : Word) (h : GoodCall cfg w set sig) :
    LeavesLoop cfg w set sig wanted ↔ WaitEnds w wanted :=
  ⟨ends_of_leaves h, leaves_of_ends h⟩

/-- A process with a signal pending. -/
def waiterWith (p_sig : Word) : Waiter :=
  { Proc.fresh with p_sig := p_sig, traced := false, svfork := false, system := false, orphan := false }

theorem goodCall_fresh (p_sig : Word) : GoodCall Swap.pico (waiterWith p_sig) 0x20001000 0x20001004 := by
  have hspans : baduaddrSpan Swap.pico false 0x20001000 4 = false ∧
      baduaddrSpan Swap.pico false 0x20001004 4 = false := by decide +kernel
  exact ⟨by decide, by decide, hspans.1, hspans.2⟩

/-- `SIGINT` is pending when the process waits for `SIGUSR1`: the loop is not left. -/
theorem sigwait_spins :
    ¬LeavesLoop Swap.pico (waiterWith (sigmask 2)) 0x20001000 0x20001004 (sigmask 30) := fun h => by
  have hacts : (waiterWith (sigmask 2)).deliverable 2 := by
    refine ⟨by decide, by decide, by decide +kernel, fun h => absurd h (by decide +kernel), by decide +kernel⟩
  have hends := ends_of_leaves (goodCall_fresh (sigmask 2)) h
  rw [WaitEnds, if_neg (by decide +kernel)] at hends
  exact hends.elim (fun hne => hne (by decide +kernel)) fun hquiet => hquiet 2 hacts

theorem sigwait_leaves_usr1 :
    LeavesLoop Swap.pico (waiterWith (sigmask 30 ||| sigmask 2)) 0x20001000 0x20001004 (sigmask 30) ↔
      WaitEnds (waiterWith (sigmask 30 ||| sigmask 2)) (sigmask 30) :=
  sigwait_leaves Swap.pico _ 0x20001000 0x20001004 (sigmask 30) (goodCall_fresh _)

end DiscoBSD.Signal
