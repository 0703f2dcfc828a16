import DiscoBSD.Bn.Shifts

/-!
# Division

Quotient and remainder are formed in scratch, and **nothing is stored before both destinations have room**, so a
destination may be an operand, and a call that fails has changed no number.
-/

set_option autoImplicit false

namespace DiscoBSD.Bn

open Lib
open Function (update)

section

variable {al : Allocator} {s s' s'' : St} {a d : Name} {dv rem : Option Name} {m : Mem} {n p : ℕ} {x y : ℤ}

/-- What `divide` leaves in scratch. -/
def scratchDivide (m : Mem) (q r u v ad : Ptr) (an : ℕ) (dd : Ptr) (dn : ℕ) : Mem :=
  if dn = 1 then
    let x := mdiv1 m q ad an (m (dd + 0))
    put x.1 (r + 0) x.2
  else mdivrem m q r u v ad an dd dn

theorem scratchDivide_one {q r u v ad dd : Ptr} {an : ℕ} (hd : (m (dd + 0) : ℕ) ≠ 0) (hqa : Apart q an ad an)
    (hqr : Apart r 1 q an) {m' : Mem} (hm' : m' = scratchDivide m q r u v ad an dd 1) :
    val m' q an = val m ad an / val m dd 1 ∧ val m' r 1 = val m ad an % val m dd 1 ∧
      ∀ z, ¬Within q an z → ¬Within r 1 z → m' z = m z := by
  obtain ⟨hdiv, hlt, honly⟩ := mdiv1_spec (m := m) (Nat.pos_of_ne_zero hd) (limb_lt m (dd + 0)) hqa
  rw [scratchDivide, if_pos rfl] at hm'
  have hdd : val m dd 1 = m (dd + 0) := by
    rw [val_succ, val_zero, Nat.pow_zero, Nat.mul_one, Nat.zero_add]
  generalize mdiv1 m q ad an (m (dd + 0)) = w at hdiv hlt honly hm'
  dsimp only at hm'
  have hput : Only r 1 w.1 m' := hm' ▸ Only.put (by decide)
  have hq : val m' q an = val w.1 q an := hqr.val hput
  have hr : val m' r 1 = w.2 := by
    rw [hm', val_put, val_zero, Nat.pow_zero, Nat.mul_one, Nat.zero_add, Nat.mod_eq_of_lt (hlt.trans (limb_lt m _))]
  have hpos : 0 < (m (dd + 0) : ℕ) := Nat.pos_of_ne_zero hd
  refine ⟨?_, ?_, fun z hzq hzr => (hput z hzr).trans (honly z hzq)⟩
  · rw [hq, hdd, hdiv, Nat.mul_comm, Nat.mul_add_div hpos, Nat.div_eq_of_lt hlt, Nat.add_zero]
  · rw [hr, hdd, hdiv, Nat.mul_comm, Nat.mul_add_mod, Nat.mod_eq_of_lt hlt]

/-- The parts of scratch that `divide` uses lie apart from each other, and from what is elsewhere. -/
theorem scratchDivide_spec {ad dd : Ptr} {an dn : ℕ} (ha : ad.region ≠ p) (hd : dd.region ≠ p) (hle : dn ≤ an)
    (hdn : dn ≠ 0) (hlead : (m (dd + (dn - 1)) : ℕ) ≠ 0) {u v q r : Ptr} (hu : u = ⟨p, 0⟩) (hv : v = u + (an + 1))
    (hq : q = v + dn) (hr : r = q + (an - dn + 1)) {m' : Mem} (hm' : m' = scratchDivide m q r u v ad an dd dn) :
    val m' q (an - dn + 1) = val m ad an / val m dd dn ∧ val m' r dn = val m ad an % val m dd dn ∧
      ∀ z : Ptr, z.region ≠ p → m' z = m z := by
  have hur : u.region = p := by rw [hu]
  have hvr : v.region = p := by rw [hv, add_region, hur]
  have hqr : q.region = p := by rw [hq, add_region, hvr]
  have hrr : r.region = p := by rw [hr, add_region, hqr]
  have huo : u.off = 0 := by rw [hu]
  have hvo : v.off = an + 1 := by rw [hv, add_off, huo, Nat.zero_add]
  have hqo : q.off = an + 1 + dn := by rw [hq, add_off, hvo]
  have hro : r.off = an + 1 + dn + (an - dn + 1) := by rw [hr, add_off, hqo]
  by_cases hone : dn = 1
  · subst hone
    have hturns : an - 1 + 1 = an := by omega
    rw [hturns] at hro ⊢
    obtain ⟨hquot, hrem, hframe⟩ := scratchDivide_one (by simpa using hlead) (.inl (by rw [hqr]; exact ha.symm))
      (.inr (.inr (by omega))) hm'
    exact ⟨hquot, hrem, fun z hz => hframe z (fun hw => hz (hw.1.trans hqr)) fun hw => hz (hw.1.trans hrr)⟩
  · rw [scratchDivide, if_neg hone] at hm'
    obtain ⟨k, rfl⟩ : ∃ k, dn = k + 2 := ⟨dn - 2, by omega⟩
    obtain ⟨l, rfl⟩ : ∃ l, an = l + 1 := ⟨an - 1, by omega⟩
    have hws : Workspace q r u v ad (l + 1) dd (k + 2) (l + 1 - (k + 2) + 1) := by
      refine ⟨.inl ?_, .inl ?_, .inl ?_, .inr (.inl ?_), .inr (.inl ?_), .inr (.inr ?_), .inr (.inr ?_), .inr (.inr ?_)⟩
      · rw [hvr]
        exact hd.symm
      · rw [hvr]
        exact ha.symm
      · rw [hur]
        exact ha.symm
      all_goals omega
    obtain ⟨hquot, hrem, hframe⟩ := mdivrem_spec (by omega) (Nat.succ_pos _) hlead hws hm'
    refine ⟨hquot, hrem, fun z hz => hframe z ⟨?_, ?_, ?_, ?_⟩⟩
    · exact fun hw => hz (hw.1.trans hur)
    · exact fun hw => hz (hw.1.trans hvr)
    · exact fun hw => hz (hw.1.trans hqr)
    · exact fun hw => hz (hw.1.trans hrr)

/-! ## Destinations that may be `NULL` -/

structure Roomy (al : Allocator) (s : St) (r : Option Name) (n : ℕ) (ok : Bool) (s' : St) : Prop where
  keeps : Keeps s s'
  loose : KeepsLoose s s'
  room : ok = true → ∀ k, r = some k → n ≤ (s'.num k).dmax
  grows : ∀ k, (s.num k).dmax ≤ (s'.num k).dmax
  failed : ok = false → Denied al s s'

theorem expandTo_spec (al : Allocator) (hv : Valid s) (r : Option Name) (hn : n ≤ bnMaxlimbs) :
    ∃ ok s', expandTo al s r n = (ok, s') ∧ Roomy al s r n ok s' := by
  cases r with
  | none =>
    exact ⟨true, s, rfl, .refl hv, .refl s, fun _ k hk => (nomatch hk), fun _ => le_refl _, fun h => absurd h (by decide)⟩
  | some r =>
    obtain ⟨ok, s', hrun, h⟩ := expand_spec al hv r n
    refine ⟨ok, s', hrun, h.keeps, h.loose, fun hok k hk => ?_, fun k => ?_, fun hok => ?_⟩
    · cases hk
      exact h.room hok
    · by_cases hk : k = r
      · rw [hk]
        exact h.grows
      · rw [h.others k hk]
    · exact (h.failed hok).resolve_right (by omega)

/-- The destination, if there is one, stands for `x`. -/
structure Stored (s : St) (r : Option Name) (p : ℕ) (x : ℤ) (s' : St) : Prop where
  valid : Valid s'
  result : ∀ k, r = some k → int s' k = x
  others : ∀ k, r ≠ some k → SameNum s s' k
  asked : s.asked ≤ s'.asked
  loose : Loose s' p ∧ ∀ i, s'.mem ⟨p, i⟩ = s.mem ⟨p, i⟩
  dmax : ∀ k, (s'.num k).dmax = (s.num k).dmax

theorem settop_dmax (s : St) (r : Name) (n : ℕ) (neg : Bool) (k : Name) :
    ((settop s r n neg).num k).dmax = (s.num k).dmax := by
  by_cases hk : k = r
  · rw [hk, settop]
    dsimp only
    rw [Function.update_self]
  · rw [settop]
    dsimp only
    rw [Function.update_of_ne hk]

theorem store_spec (hv : Valid s) (hp : Loose s p) (r : Option Name) (o : ℕ) (hn : ∀ k, r = some k → n ≤ (s.num k).dmax)
    (neg : Bool) : Stored s r p (signed neg (val s.mem ⟨p, o⟩ n)) (store s r ⟨p, o⟩ n neg) := by
  cases r with
  | none =>
    exact ⟨hv, fun k hk => (nomatch hk), fun k _ => .refl s k, le_refl _, ⟨hp, fun _ => rfl⟩, fun _ => rfl⟩
  | some r =>
    have hroom := hn r rfl
    have hsets := hv.copied hp o hroom neg
    have hloose := hp.settop (hp.copyLimbs r o hroom).2 n neg
    refine ⟨hsets.valid, fun k hk => ?_, fun k hk => hsets.others k fun h => hk (congrArg some h.symm), hsets.asked, hloose,
      fun k => settop_dmax ..⟩
    cases hk
    exact hsets.result

/-! ## Quotient and remainder -/

/-- How a division ends. -/
structure Divided (al : Allocator) (s : St) (dv rem : Option Name) (x y : ℤ) (refused : Prop) (ok : Bool) (s' : St) :
    Prop where
  valid : Valid s'
  quotient : ok = true → ∀ k, dv = some k → int s' k = x
  remainder : ok = true → ∀ k, rem = some k → int s' k = y
  others : ok = true → ∀ k, dv ≠ some k → rem ≠ some k → SameNum s s' k
  kept : ok = false → Keeps s s'
  asked : s.asked ≤ s'.asked
  why : ok = false → Denied al s s' ∨ refused
  refuses : refused → ok = false

theorem Keeps.divided {refused : Prop} (h : Keeps s s') (hwhy : Denied al s s' ∨ refused) :
    Divided al s dv rem x y refused false s' :=
  ⟨h.valid, fun h => absurd h (by decide), fun h => absurd h (by decide), fun h => absurd h (by decide), fun _ => h, h.asked,
    fun _ => hwhy, fun _ => rfl⟩

/-- One destination after the other gets its value. -/
theorem Stored.divided {refused : Prop} {t t' : St} (hkeeps : Keeps s t) (hdv : Stored t dv p x t')
    (hrem : Stored t' rem p y s') (hne : ∀ k, dv = some k → rem ≠ some k) (hnot : ¬refused) :
    Divided al s dv rem x y refused true s' := by
  refine ⟨hrem.valid, fun _ k hk => ?_, fun _ k hk => hrem.result k hk, fun _ k hkdv hkrem => ?_, fun h => absurd h (by decide), ?_,
    fun h => absurd h (by decide), fun h => absurd h hnot⟩
  · rw [(hrem.others k (hne k hk)).int]
    exact hdv.result k hk
  · exact (hkeeps.same k).trans ((hdv.others k hkdv).trans (hrem.others k hkrem))
  · exact hkeeps.asked.trans (hdv.asked.trans hrem.asked)

/-- A dividend smaller than the divisor is the remainder. -/
theorem divide_small (al : Allocator) (hv : Valid s) (dv rem : Option Name) (a : Name) {refused : Prop} (hnot : ¬refused) :
    (∀ k, dv = some k → rem ≠ some k) →
      ∃ ok s', (match (match rem with
          | none => (true, s)
          | some rem => bnCopy al s rem a) with
        | (false, s) => (false, s)
        | (true, s) =>
          match dv with
          | none => (true, s)
          | some dv => (true, setzero s dv)) = (ok, s') ∧ Divided al s dv rem 0 (int s a) refused ok s' := by
  intro hne
  obtain ⟨ok, t, hrun, hends⟩ : ∃ ok t, (match rem with
      | none => (true, s)
      | some rem => bnCopy al s rem a) = (ok, t) ∧
      (ok = true → Valid t ∧ (∀ k, rem = some k → int t k = int s a) ∧ (∀ k, rem ≠ some k → SameNum s t k) ∧
        s.asked ≤ t.asked) ∧ (ok = false → Keeps s t ∧ Denied al s t) := by
    cases rem with
    | none =>
      exact ⟨true, s, rfl, fun _ => ⟨hv, fun k hk => (nomatch hk), fun k _ => .refl s k, le_refl _⟩, fun h => absurd h (by decide)⟩
    | some r =>
      obtain ⟨ok, t, hrun, hends⟩ := bnCopy_spec al hv r a
      refine ⟨ok, t, hrun, fun hok => ?_, fun hok => ⟨hends.kept hok, (hends.why hok).resolve_right id⟩⟩
      have hsets := hends.done hok
      refine ⟨hsets.valid, fun k hk => ?_, fun k hk => hsets.others k fun h => hk (congrArg some h.symm), hsets.asked⟩
      cases hk
      exact hsets.result
  rw [hrun]
  cases ok with
  | false => exact ⟨false, t, rfl, (hends.2 rfl).1.divided (.inl (hends.2 rfl).2)⟩
  | true =>
    obtain ⟨hvt, hrem, hothers, hasked⟩ := hends.1 rfl
    cases dv with
    | none =>
      exact ⟨true, t, rfl, hvt, fun _ k hk => (nomatch hk), fun _ => hrem, fun _ k _ hk => hothers k hk, fun h => absurd h (by decide),
        hasked, fun h => absurd h (by decide), fun h => absurd h hnot⟩
    | some r =>
      have hsets := hvt.setzero r
      refine ⟨true, _, rfl, hsets.valid, fun _ k hk => ?_, fun _ k hk => ?_, fun _ k hdv hk => ?_, fun h => absurd h (by decide),
        hasked.trans hsets.asked, fun h => absurd h (by decide), fun h => absurd h hnot⟩
      · cases hk
        exact hsets.result
      · rw [(hsets.others k fun h => hne r rfl (h ▸ hk)).int]
        exact hrem k hk
      · exact (hothers k hk).trans (hsets.others k fun h => hdv (congrArg some h.symm))

/-- What lies in scratch goes to the destinations, if there is room. -/
theorem divide_store (al : Allocator) {t : St} (hkeeps : Keeps s t) (hp : Loose t p) {qn rn : ℕ} (qo ro : ℕ) (hqn : qn ≤ bnMaxlimbs)
    (hrn : rn ≤ bnMaxlimbs) (qneg aneg : Bool) {refused : Prop} (hne : ∀ k, dv = some k → rem ≠ some k) (hnot : ¬refused) :
    ∃ ok s', (match expandTo al t dv qn with
      | (false, s) => (false, s)
      | (true, s) =>
        match expandTo al s rem rn with
        | (false, s) => (false, s)
        | (true, s) => (true, store (store s dv ⟨p, qo⟩ qn qneg) rem ⟨p, ro⟩ rn aneg)) = (ok, s') ∧
      Divided al s dv rem (signed qneg (val t.mem ⟨p, qo⟩ qn)) (signed aneg (val t.mem ⟨p, ro⟩ rn)) refused ok s' := by
  obtain ⟨ok, t₁, hrun, hfirst⟩ := expandTo_spec al hkeeps.valid dv hqn
  rw [hrun]
  have hkeeps₁ := hkeeps.trans hfirst.keeps
  cases ok with
  | false => exact ⟨false, t₁, rfl, hkeeps₁.divided (.inl ((hfirst.failed rfl).mono hkeeps.asked (le_refl _)))⟩
  | true =>
    obtain ⟨ok, t₂, hrun, hsecond⟩ := expandTo_spec al hfirst.keeps.valid rem hrn
    dsimp only
    rw [hrun]
    have hkeeps₂ := hkeeps₁.trans hsecond.keeps
    cases ok with
    | false => exact ⟨false, t₂, rfl, hkeeps₂.divided (.inl ((hsecond.failed rfl).mono hkeeps₁.asked (le_refl _)))⟩
    | true =>
      obtain ⟨hp₂, hsame⟩ := (hfirst.loose.trans hsecond.loose) p hp
      have hroom : ∀ k, dv = some k → qn ≤ (t₂.num k).dmax := fun k hk => (hfirst.room rfl k hk).trans (hsecond.grows k)
      have hstored := store_spec hsecond.keeps.valid hp₂ dv qo hroom qneg
      obtain ⟨t₃, ht₃⟩ : ∃ t₃, t₃ = store t₂ dv ⟨p, qo⟩ qn qneg := ⟨_, rfl⟩
      rw [← ht₃] at hstored
      have hroom' : ∀ k, rem = some k → rn ≤ (t₃.num k).dmax := fun k hk => by
        rw [hstored.dmax]
        exact hsecond.room rfl k hk
      have hstored' := store_spec hstored.valid hstored.loose.1 rem ro hroom' aneg
      have hq : val t₂.mem ⟨p, qo⟩ qn = val t.mem ⟨p, qo⟩ qn := val_congr fun i _ => hsame _
      have hr : val t₃.mem ⟨p, ro⟩ rn = val t.mem ⟨p, ro⟩ rn :=
        val_congr fun i _ => (hstored.loose.2 _).trans (hsame _)
      rw [hq] at hstored
      rw [hr] at hstored'
      refine ⟨true, _, rfl, ?_⟩
      rw [← ht₃]
      exact hstored.divided hkeeps₂ hstored' hne hnot

/-- `BN_div` computes quotient and remainder, the one towards zero and the other with the sign of the dividend. -/
theorem bnDiv_spec (al : Allocator) (hv : Valid s) (dv rem : Option Name) (a d : Name) (ctx : Option ℕ) :
    ∃ ok s', bnDiv al s dv rem a d ctx = (ok, s') ∧
      Divided al s dv rem (Int.tdiv (int s a) (int s d)) (Int.tmod (int s a) (int s d))
        (int s d = 0 ∨ (dv ≠ none ∧ dv = rem)) ok s' := by
  unfold bnDiv divide
  dsimp only
  have hzero : (s.num d).top = 0 ↔ int s d = 0 := by
    rw [← (hv.num d).mag_eq_zero, ← natAbs_int, Int.natAbs_eq_zero]
  have hiff := or_congr_left hzero (c := dv ≠ none ∧ dv = rem)
  by_cases hrefused : int s d = 0 ∨ (dv ≠ none ∧ dv = rem)
  · rw [if_pos (hiff.mpr hrefused)]
    exact ⟨false, s, rfl, (Keeps.refl hv).divided (.inr hrefused)⟩
  · rw [if_neg fun h => hrefused (hiff.mp h), hv.mcmp]
    have hne : ∀ k, dv = some k → rem ≠ some k := by
      rintro k hdv hrem
      exact hrefused (.inr ⟨by rw [hdv]; exact Option.some_ne_none k, hdv.trans hrem.symm⟩)
    have hd : (s.num d).top ≠ 0 := fun h => hrefused (.inl (hzero.mp h))
    have hquot : Int.tdiv (int s a) (int s d) = signed ((s.num a).neg != (s.num d).neg) (mag s a / mag s d) :=
      (signed_tdiv ..).symm
    have hrem : Int.tmod (int s a) (int s d) = signed (s.num a).neg (mag s a % mag s d) := (signed_tmod ..).symm
    by_cases hlt : mag s a < mag s d
    · have hsmall := divide_small al hv dv rem a hrefused hne
      rw [sign_of_gt hlt, if_pos (by decide), hquot, hrem, Nat.div_eq_of_lt hlt, Nat.mod_eq_of_lt hlt, signed_zero]
      exact hsmall
    · have hle : mag s d ≤ mag s a := Nat.le_of_not_lt hlt
      have htop := hv.top_le_top hle
      have hmax := hv.top_le a
      have hsign : ¬Int.sign ((mag s a : ℤ) - mag s d) < 0 := by
        have := Int.sign_nonneg_iff.mpr (by omega : (0 : ℤ) ≤ mag s a - mag s d)
        omega
      rw [if_neg hsign]
      have hscratch := scratchGet_spec al (n := (s.num a).top + 1 + (s.num d).top + ((s.num a).top - (s.num d).top + 1) +
        (s.num d).top) hv ctx (by omega)
      rcases hscratch with ⟨t, hrun, hkeeps, hdenied⟩ | ⟨p, t, hrun, hkeeps, hp, hnum⟩
      · rw [hrun]
        exact ⟨false, t, rfl, hkeeps.divided (.inl hdenied)⟩
      · rw [hrun]
        dsimp only
        have hlead : (t.mem ((s.num d).limbs + ((s.num d).top - 1)) : ℕ) ≠ 0 := by
          have := (hkeeps.valid.num d).lead
          rw [hnum] at this
          exact this hd
        have hma := (hkeeps.same a).mag
        have hmd := (hkeeps.same d).mag
        rw [mag, hnum] at hma hmd
        obtain ⟨m', hm'⟩ : ∃ m', m' = scratchDivide t.mem ((⟨p, 0⟩ : Ptr) + ((s.num a).top + 1) + (s.num d).top)
          ((⟨p, 0⟩ : Ptr) + ((s.num a).top + 1) + (s.num d).top + ((s.num a).top - (s.num d).top + 1)) ⟨p, 0⟩
          ((⟨p, 0⟩ : Ptr) + ((s.num a).top + 1)) (s.num a).limbs (s.num a).top (s.num d).limbs (s.num d).top := ⟨_, rfl⟩
        obtain ⟨hq, hr, hframe⟩ := scratchDivide_spec (hnum ▸ hp.apart a) (hnum ▸ hp.apart d) htop hd hlead rfl rfl rfl rfl hm'
        rw [hma, hmd] at hq hr
        obtain ⟨hkeeps', hp'⟩ := hkeeps.valid.scratchWrite hp hframe
        have hstore := divide_store al (hkeeps.trans hkeeps') hp' (0 + ((s.num a).top + 1) + (s.num d).top)
          (0 + ((s.num a).top + 1) + (s.num d).top + ((s.num a).top - (s.num d).top + 1))
          (by omega : (s.num a).top - (s.num d).top + 1 ≤ bnMaxlimbs) (by omega : (s.num d).top ≤ bnMaxlimbs)
          ((s.num a).neg != (s.num d).neg) (s.num a).neg hne hrefused
        rw [hquot, hrem, ← hq, ← hr, congrFun hnum a]
        rw [hm'] at hstore ⊢
        exact hstore

end

end DiscoBSD.Bn
