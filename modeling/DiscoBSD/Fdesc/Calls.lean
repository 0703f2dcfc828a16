import DiscoBSD.Fdesc.Moves

/-!
# The calls keep the counts

Each call, up to its first sleep and from each sleep on. An open that `fdopen` sends to another descriptor is the
one that may go wrong: **where `dupfdopen` fails, the open returns without an error and its descriptor names
nothing.**
-/

set_option autoImplicit false

namespace DiscoBSD.Fdesc

open DiscoBSD.Lib
open Function (update)

section

variable {t t' : Table} {u u' : User} {v : Option User} {nfile f i : ℕ}

/-- An entry that nobody has goes into a descriptor that is free. -/
theorem falloc_moves (hl : Last u) (hphase : u.phase = .user) (h : falloc nfile t u = (some f, t', u')) :
    Moves t u t' (some u') ∧ u'.phase = .user ∧ u'.u_error = u.u_error ∧ u'.u_rval < nofile ∧
      u'.u_ofile u'.u_rval = some f ∧ t'.count f = 1 := by
  obtain ⟨i, hi, hfree, hzero, rfl, rfl⟩ := falloc_some h
  have hcount : ∀ g, ({ t.set f { t.file f with f_count := 1, f_data := none } with lastf := f + 1 } : Table).count g =
      if g = f then 1 else t.count g := fun _ => count_set _
  have hslot := held_slot { u with
    u_ofile := update u.u_ofile i (some f), u_rval := i, u_pofile := update u.u_pofile i 0
    u_lastfile := max u.u_lastfile i } hi rfl (leaving_user hphase)
  simp only [hfree, same_none] at hslot
  refine ⟨⟨fun g => ?_, fun g hg => ?_, ?_⟩, hphase, rfl, hi, Function.update_self .., by rw [hcount, if_pos rfl]⟩
  · have hg := hslot g
    rw [hcount, heldBy_some]
    by_cases hgf : g = f
    · rw [hgf, same_self] at hg
      rw [if_pos hgf, hgf, hzero]
      omega
    · rw [same_of_ne (Ne.symm hgf)] at hg
      rw [if_neg hgf]
      omega
  · rw [heldBy_some] at hg
    by_cases hgf : g = f
    · exact .inr (by rw [hgf, hzero])
    · have hle := hslot g
      rw [same_of_ne (Ne.symm hgf)] at hle
      exact .inl (by omega)
  · rintro v ⟨rfl⟩
    exact ⟨hl.given hi _ _ _, phased_user hphase⟩

/-! ## dup and fcntl -/

theorem toNat_lt_of_not_le {w : Word} (h : ¬ nofile ≤ w.toNat) : w.toNat < nofile := Nat.lt_of_not_le h

/-- A free descriptor is found, and given an entry that the process has. -/
theorem ufalloc_dupit (hl : Last u) (hphase : u.phase = .user) (hheld : 0 < u.slots f) {j : ℕ}
    (h : u.ufalloc i = (some j, u')) (flags : BitVec 8) :
    Moves t u (dupit t u' j f flags).1 (some (dupit t u' j f flags).2) := by
  obtain ⟨-, hj, hfree, rfl⟩ := ufalloc_some h
  have hl' : Last { u with u_rval := j, u_pofile := update u.u_pofile j 0, u_lastfile := max u.u_lastfile j } := by
    have hg := hl.given hj (u.u_ofile j) (update u.u_pofile j 0) j
    rwa [Function.update_eq_self] at hg
  have hstill : Moves t u t
      (some { u with u_rval := j, u_pofile := update u.u_pofile j 0, u_lastfile := max u.u_lastfile j }) :=
    .rest (fun _ => rfl) rfl (leaving_user hphase) ⟨hl', phased_user hphase⟩
  exact hstill.trans (leaving_user hphase) (dupit_moves hl' hj hfree hphase hheld flags)

theorem ufalloc_fails (hl : Last u) (hphase : u.phase = .user) (h : u.ufalloc i = (none, u')) :
    Moves t u t (some u') := by
  obtain rfl := ufalloc_none h
  exact .still (fun _ => rfl) rfl rfl (leaving_user hphase) hl (phased_user hphase)

theorem dupfd_moves (hl : Last u) (hphase : u.phase = .user) (fdes arg : Word) :
    Moves t u (dupfd t u fdes arg).1 (some (dupfd t u fdes arg).2) := by
  unfold dupfd
  by_cases hfd : nofile ≤ fdes.toNat
  · rw [if_pos hfd]
    exact .fail hl hphase _
  rw [if_neg hfd]
  split
  · exact .fail hl hphase _
  rename_i fp hfp
  have hheld := slots_of_some (toNat_lt_of_not_le hfd) hfp
  by_cases harg : nofile ≤ arg.toNat
  · rw [if_pos harg]
    exact .fail hl hphase _
  rw [if_neg harg]
  split
  · rename_i u' hu
    exact ufalloc_fails hl hphase hu
  · rename_i j u' hu
    exact ufalloc_dupit hl hphase hheld hu _

/-- `dup2` of a descriptor that is open. -/
theorem dup2_moves (hl : Last u) (hb : Backed t u) (hphase : u.phase = .user) {i j : Word} {u' : User}
    (h : dup2 t u i j = some (t', u')) : Moves t u t' (some u') := by
  unfold dup2 at h
  by_cases hi : nofile ≤ i.toNat
  · rw [if_pos hi] at h
    cases h
    exact .fail hl hphase _
  rw [if_neg hi] at h
  split at h
  · cases h
    exact .fail hl hphase _
  rename_i fp hfp
  have hi' := toNat_lt_of_not_le hi
  by_cases hj : nofile ≤ j.toNat
  · rw [if_pos hj] at h
    cases h
    exact .fail hl hphase _
  rw [if_neg hj] at h
  by_cases hij : i = j
  · dsimp only at h
    rw [if_pos hij] at h
    cases h
    exact .still (fun _ => rfl) rfl rfl (leaving_user hphase) hl (phased_user hphase)
  dsimp only at h
  rw [if_neg hij] at h
  have hj' := toNat_lt_of_not_le hj
  have hne : i.toNat ≠ j.toNat := fun he => hij (BitVec.eq_of_toNat_eq he)
  have hstart : Moves t u t (some { u with u_rval := j.toNat }) :=
    .still (fun _ => rfl) rfl rfl (leaving_user hphase) hl (phased_user hphase)
  have hl' : Last { u with u_rval := j.toNat } := hl.congr rfl rfl
  split at h
  · rename_i hfree
    cases h
    exact hstart.trans (leaving_user hphase)
      (dupit_moves hl' hj' hfree hphase (slots_of_some hi' hfp) _)
  · rename_i old hold
    obtain ⟨⟨t₁, sleeps⟩, hclose, hrest⟩ := Option.map_eq_some_iff.mp h
    cases sleeps with
    | true =>
      cases hrest
      obtain ⟨hone, hsame⟩ := closef_last hb hj' hold hclose
      exact .still hsame rfl rfl rfl hl ⟨hone, hi', hj', hfp, hold, hne⟩
    | false =>
      obtain ⟨rfl, rfl⟩ := Prod.mk.inj hrest
      have hdrop := closef_moves hl' hj' hold hphase hclose
      have hfp' : ({ u with u_rval := j.toNat }.slot j.toNat none).u_ofile i.toNat = some fp := by
        refine Eq.trans ?_ hfp
        exact Function.update_of_ne hne _ _
      have hgive := dupit_moves (t := t₁) (hl'.taken j.toNat) hj' (Function.update_self ..) hphase
        (slots_of_some hi' hfp') (u.u_pofile i.toNat &&& ~~~ufExclose)
      have hall := (hstart.trans (leaving_user hphase) hdrop).trans (leaving_user hphase) hgive
      unfold dupit User.slot at hall
      simp only [Function.update_idem] at hall
      exact hall

theorem dup_moves (hl : Last u) (hb : Backed t u) (hphase : u.phase = .user) {i j : Word} {u' : User}
    (h : dup t u i j = some (t', u')) : Moves t u t' (some u') := by
  unfold dup at h
  by_cases hlong : i &&& ~~~0o77 ≠ 0
  · rw [if_pos hlong] at h
    exact dup2_moves hl hb hphase h
  rw [if_neg hlong] at h
  by_cases hi : nofile ≤ i.toNat
  · rw [if_pos hi] at h
    cases h
    exact .fail hl hphase _
  rw [if_neg hi] at h
  split at h
  · cases h
    exact .fail hl hphase _
  rename_i fp hfp
  have hheld := slots_of_some (toNat_lt_of_not_le hi) hfp
  split at h
  · rename_i u₁ hu
    cases h
    exact ufalloc_fails hl hphase hu
  · rename_i k u₁ hu
    cases h
    exact ufalloc_dupit hl hphase hheld hu _

/-! ## close -/

/-- The loop of `close` finds the last descriptor that is open. -/
theorem lastfile_spec (ofile : ℕ → Option ℕ) (n : ℕ) :
    -1 ≤ lastfile ofile n ∧ lastfile ofile n < n ∧ ∀ i < n, ofile i ≠ none → (i : ℤ) ≤ lastfile ofile n := by
  induction n with
  | zero => exact ⟨le_rfl, Int.negSucc_lt_zero 0, nofun⟩
  | succ n ih =>
    obtain ⟨hlow, hhigh, hopen⟩ := ih
    unfold lastfile
    split_ifs with hnone
    · refine ⟨hlow, by push_cast; omega, fun i hi hne => ?_⟩
      rcases Nat.lt_succ_iff_lt_or_eq.mp hi with hlt | rfl
      · exact hopen i hlt hne
      · exact absurd (Option.isNone_iff_eq_none.mp hnone) hne
    · exact ⟨by omega, by push_cast; omega, fun i hi _ => by omega⟩

/-- After a descriptor was closed `u_lastfile` is lowered. -/
theorem Last.lower (hl : Last u) : Last { u with u_lastfile := lastfile u.u_ofile (u.u_lastfile + 1).toNat } := by
  obtain ⟨hlow, hhigh, hopen⟩ := lastfile_spec u.u_ofile (u.u_lastfile + 1).toNat
  have hl₁ := hl.low
  have hl₂ := hl.high
  refine ⟨hlow, ?_, fun i hi hne => ?_⟩
  · dsimp only
    omega
  · have hle := hl.open_le i hi hne
    exact hopen i (by omega) hne

theorem close_moves (hl : Last u) (hb : Backed t u) (hphase : u.phase = .user) {i : Word}
    (h : close t u i = some (t', u')) : Moves t u t' (some u') := by
  unfold close at h
  by_cases hi : nofile ≤ i.toNat
  · rw [if_pos hi] at h
    cases h
    exact .fail hl hphase _
  rw [if_neg hi] at h
  split at h
  · cases h
    exact .fail hl hphase _
  rename_i fp hfp
  have hi' := toNat_lt_of_not_le hi
  have hlower := (hl.taken i.toNat).lower
  obtain ⟨⟨t₁, sleeps⟩, hclose, hrest⟩ := Option.map_eq_some_iff.mp h
  cases sleeps with
  | true =>
    cases hrest
    obtain ⟨hone, hsame⟩ := closef_last hb hi' hfp hclose
    have hslots := fun g => slots_slot (u := u) hi' none g
    simp only [hfp, same_none] at hslots
    refine ⟨fun g => ?_, fun g hg => .inl ?_, ?_⟩
    · rw [hsame, heldBy_some]
      exact congrArg (t.count g + ·) (hslots g).symm
    · have hg' : 0 < (u.slot i.toNat none).slots g + same (some fp) g := hg
      have hle := hslots g
      omega
    · rintro v ⟨rfl⟩
      exact ⟨hlower.congr rfl rfl, hone, trivial⟩
  | false =>
    obtain ⟨rfl, rfl⟩ := Prod.mk.inj hrest
    exact (closef_moves hl hi' hfp hphase hclose).trans (leaving_user hphase)
      (.rest (fun _ => rfl) rfl (leaving_user hphase) ⟨hlower, phased_user hphase⟩)

/-! ## pipe -/

/-- What only the flags, the type and the data of an entry say is in no count. -/
theorem count_same {file : File} (h : file.f_count = t.count f) (g : ℕ) : (t.set f file).count g = t.count g := by
  rw [count_set]
  split_ifs with hg
  · rw [h, hg]
  · rfl

/-- An entry that was allocated is given up. -/
theorem giveUp_moves (hl : Last u) (hi : i < nofile) (hopen : u.u_ofile i = some f) (hone : t.count f = 1)
    (hu : u'.u_ofile = update u.u_ofile i none) (hlast : u'.u_lastfile = u.u_lastfile) (hleaving : u'.leaving = none)
    (hp : Phased (t.closed f) u') : Moves t u (t.closed f) (some u') := by
  have hslot := held_slot u' hi hu hleaving
  simp only [hopen, same_none] at hslot
  refine ⟨fun g => ?_, fun g hg => .inl ?_, ?_⟩
  · have hg := hslot g
    rw [count_closed, heldBy_some]
    by_cases hgf : g = f
    · rw [hgf, same_self] at hg
      rw [if_pos hgf, hgf, hone]
      omega
    · rw [same_of_ne (Ne.symm hgf)] at hg
      rw [if_neg hgf]
      omega
  · have hle := hslot g
    rw [heldBy_some] at hg
    omega
  · rintro v ⟨rfl⟩
    exact ⟨(hl.taken i).congr hu hlast, hp⟩

theorem pipe_moves (hl : Last u) (hphase : u.phase = .user) (ip : Errno ⊕ ℕ) :
    Moves t u (pipe nfile t u ip).1 (some (pipe nfile t u ip).2) := by
  unfold pipe
  cases ip with
  | inl error => exact .fail hl hphase error
  | inr ip =>
    dsimp only
    split
    · rename_i t₁ u₁ hrf
      obtain ⟨rfl, hofile, hp, -, hlast⟩ := falloc_none hrf
      have hphase₁ := hp.trans hphase
      exact .rest (fun _ => rfl) hofile (leaving_user hphase₁) ⟨hlast hl, phased_user hphase₁⟩
    rename_i rf t₁ u₁ hrf
    obtain ⟨hmove₁, hphase₁, -, hr, hopen₁, hone⟩ := falloc_moves hl hphase hrf
    have hl₁ := (hmove₁.valid u₁ rfl).last
    split
    · rename_i t₂ u₂ hwf
      obtain ⟨rfl, hofile, hp, -, hlast⟩ := falloc_none hwf
      have hphase₂ := hp.trans hphase₁
      have hstill : Moves t₂ u₁ t₂ (some u₂) :=
        .rest (fun _ => rfl) hofile (leaving_user hphase₂) ⟨hlast hl₁, phased_user hphase₂⟩
      have hopen₂ : u₂.u_ofile u₁.u_rval = some rf := by rwa [hofile]
      have hphase₃ : (u₂.slot u₁.u_rval none).phase = .user := hphase₂
      exact (hmove₁.trans (leaving_user hphase₁) hstill).trans (leaving_user hphase₂)
        (giveUp_moves (hlast hl₁) hr hopen₂ hone rfl rfl (leaving_user hphase₃) (phased_user hphase₃))
    · rename_i wf t₂ u₂ hwf
      obtain ⟨hmove₂, hphase₂, -, -, -, hone₂⟩ := falloc_moves hl₁ hphase₁ hwf
      have hl₂ := (hmove₂.valid u₂ rfl).last
      refine ((hmove₁.trans (leaving_user hphase₁) hmove₂).trans (leaving_user hphase₂)
        (.rest (fun g => ?_) rfl (leaving_user hphase₂) ⟨hl₂.congr rfl rfl, phased_user hphase₂⟩))
      exact (count_same (by rfl) g).trans (count_same (by rfl) g)

/-! ## Opens -/

/-- `copen` up to `vn_open_at`. -/
theorem copen_moves (hl : Last u) (hphase : u.phase = .user) (mode : Word) (entered : Option Errno) :
    Moves t u (copen nfile t u mode entered).1 (some (copen nfile t u mode entered).2) := by
  unfold copen
  by_cases hsearch : mode &&& oSearch ≠ 0 ∧ (mode &&& oAccmode ≠ 0 ∨ mode &&& (oCreat ||| oTrunc ||| oExcl) ≠ 0)
  · rw [if_pos hsearch]
    exact .opens hl _
  rw [if_neg hsearch]
  cases entered with
  | some error => exact .opens hl error
  | none =>
    dsimp only
    split
    · rename_i t₁ u₁ hfalloc
      obtain ⟨rfl, hofile, -, herror, hlast⟩ := falloc_none hfalloc
      exact .rest (fun _ => rfl) hofile rfl ⟨(hlast hl).congr rfl rfl, fun hnone => absurd hnone herror⟩
    · rename_i fp t₁ u₁ hfalloc
      obtain ⟨hmove, hphase₁, -, hindx, hopen, hone⟩ := falloc_moves hl hphase hfalloc
      have hl₁ := (hmove.valid u₁ rfl).last
      refine hmove.trans (leaving_user hphase₁) (.rest (fun g => count_same (by rfl) g) rfl rfl ⟨hl₁.congr rfl rfl, ?_⟩)
      refine ⟨hindx, hopen, ?_, rfl, ?_⟩
      · exact (count_same (by rfl) fp).trans hone
      · dsimp only
        omega

/-- The redirect to descriptor `dfd` is accepted. -/
def Redirects (t : Table) (u : User) (fp : ℕ) (flags : Word) (dfd : ℕ) : Prop :=
  dfd < nofile ∧ ∃ wfp, u.u_ofile dfd = some wfp ∧ wfp ≠ fp ∧
    (flags &&& fReadWrite) ||| (t.file wfp).f_flag = (t.file wfp).f_flag

/-- Where the redirect is not accepted, `dupfdopen` changes nothing. -/
theorem dupfdopen_refuses {fp dfd : ℕ} {flags : Word} (hopen : u.u_ofile i = some fp)
    (h : ¬ Redirects t u fp flags dfd) : ∃ error, dupfdopen t u i dfd flags .enodev = (some error, t, u) := by
  unfold dupfdopen
  dsimp only
  by_cases hdfd : (nofile : ℤ) ≤ dfd
  · rw [if_pos hdfd]
    exact ⟨_, rfl⟩
  rw [if_neg hdfd, Int.toNat_natCast]
  split
  · exact ⟨_, rfl⟩
  rename_i wfp hwfp
  rw [hopen]
  by_cases hsame : some fp = some wfp
  · rw [if_pos hsame]
    exact ⟨_, rfl⟩
  rw [if_neg hsame, if_pos rfl]
  by_cases hmode : flags &&& fReadWrite ||| (t.file wfp).f_flag ≠ (t.file wfp).f_flag
  · rw [if_pos hmode]
    exact ⟨_, rfl⟩
  · refine absurd ⟨by omega, wfp, hwfp, fun he => hsame (by rw [he]), ?_⟩ h
    exact not_not.mp hmode

theorem dupfdopen_accepts {fp dfd : ℕ} {flags : Word} (hopen : u.u_ofile i = some fp)
    (h : Redirects t u fp flags dfd) : ∃ wfp, wfp ≠ fp ∧ u.u_ofile dfd = some wfp ∧ dfd < nofile ∧
      dupfdopen t u i dfd flags .enodev =
        (none, t.set wfp { t.file wfp with f_count := (t.file wfp).f_count + 1 },
          { u.slot i (some wfp) with
            u_pofile := update u.u_pofile i (u.u_pofile dfd), u_lastfile := max u.u_lastfile i }) := by
  obtain ⟨hdfd, wfp, hwfp, hne, hmode⟩ := h
  refine ⟨wfp, hne, hwfp, hdfd, ?_⟩
  unfold dupfdopen
  dsimp only
  rw [if_neg (by omega), Int.toNat_natCast]
  simp only [hwfp, hopen]
  rw [if_neg (by rintro ⟨rfl⟩; exact hne rfl), if_neg (not_not.mpr hmode)]
  rfl

/-- An open that failed gives up its entry. -/
theorem failed_moves (hl : Last u) {fp : ℕ} (hi : i < nofile) (hopen : u.u_ofile i = some fp) (hone : t.count fp = 1)
    {flags : Word} {error : Errno} (hgo : ¬ ((error = .enodev ∨ error = .enxio) ∧ 0 ≤ u.u_dupfd)) :
    Moves t u (copenFailed t u i fp flags error).1 (some (copenFailed t u i fp flags error).2) := by
  unfold copenFailed
  dsimp only
  rw [if_neg hgo]
  exact giveUp_moves hl hi hopen hone rfl rfl rfl nofun

theorem freed_moves (hl : Last u) (hi : i < nofile) (hopen : u.u_ofile i = some f) (hone : t.count f = 1) :
    ∃ u₁ : User, u₁.u_ofile = update u.u_ofile i none ∧ u₁.u_lastfile = u.u_lastfile ∧ u₁.phase = .user ∧
      Moves t u (t.closed f) (some u₁) :=
  ⟨{ u.slot i none with phase := .user }, rfl, rfl, rfl, giveUp_moves hl hi hopen hone rfl rfl rfl trivial⟩

/-- An open that is redirected shares the other descriptor's entry. -/
theorem redirected_moves (hl : Last u) {fp dfd : ℕ} (hi : i < nofile) (hopen : u.u_ofile i = some fp)
    (hone : t.count fp = 1) {flags : Word} (hdup : u.u_dupfd = dfd) (h : Redirects t u fp flags dfd) :
    Moves t u (copenFailed t u i fp flags .enodev).1 (some (copenFailed t u i fp flags .enodev).2) := by
  have hother : ∀ wfp, wfp ≠ fp → (t.closed fp).file wfp = t.file wfp := fun wfp hne => Function.update_of_ne hne _ _
  have hclosed : Redirects (t.closed fp) u fp flags dfd := by
    obtain ⟨hdfd, wfp, hwfp, hne, hmode⟩ := h
    exact ⟨hdfd, wfp, hwfp, hne, by rwa [hother wfp hne]⟩
  obtain ⟨wfp, hne, hwfp, hdfd, hok⟩ := dupfdopen_accepts hopen hclosed
  -- The descriptor is free, and then it is given the other's entry.
  obtain ⟨u₁, hofile, hlast, hphase, hgive⟩ := freed_moves hl hi hopen hone
  have hdi : dfd ≠ i := by
    rintro rfl
    rw [hopen] at hwfp
    exact hne (Option.some.inj hwfp).symm
  have hheld : 0 < u₁.slots wfp := by
    refine slots_of_some hdfd ?_
    rw [hofile, Function.update_of_ne hdi]
    exact hwfp
  have hok' : copenFailed t u i fp flags .enodev =
      ((t.closed fp).set wfp { (t.closed fp).file wfp with f_count := ((t.closed fp).file wfp).f_count + 1 },
        { { u.slot i (some wfp) with
            u_pofile := update u.u_pofile i (u.u_pofile dfd), u_lastfile := max u.u_lastfile i } with
          u_rval := i }.opens none) := by
    unfold copenFailed
    dsimp only
    rw [if_pos ⟨.inl rfl, by omega⟩, hdup]
    unfold Table.closed at hok
    rw [hok]
    rfl
  rw [hok']
  refine hgive.trans (leaving_user hphase) (share_moves (hgive.valid u₁ rfl).last hi ?_ hheld (fun _ => count_set _) ?_ ?_
    rfl fun _ => ⟨hi, ?_⟩)
  · rw [hofile, Function.update_self]
  · rw [hofile, Function.update_idem]
    rfl
  · rw [hlast]
    rfl
  · have hself : update u.u_ofile i (some wfp) i ≠ none := by
      rw [Function.update_self]
      nofun
    exact hself

/-- **Where the redirect is not accepted, the open reports success and its descriptor names nothing.** -/
theorem refused_opens {fp dfd : ℕ} {flags : Word} (hopen : u.u_ofile i = some fp) (hdup : u.u_dupfd = dfd)
    (h : ¬ Redirects t u fp flags dfd) : ∃ t', copenFailed t u i fp flags .enodev = (t', (u.slot i none).opens none) := by
  have hclosed : ¬ Redirects (t.closed fp) u fp flags dfd := by
    rintro ⟨hdfd, wfp, hwfp, hne, hmode⟩
    have hother : (t.closed fp).file wfp = t.file wfp := Function.update_of_ne hne _ _
    exact h ⟨hdfd, wfp, hwfp, hne, by rwa [hother] at hmode⟩
  obtain ⟨error, hok⟩ := dupfdopen_refuses hopen hclosed
  refine ⟨t.closed fp, ?_⟩
  unfold copenFailed
  dsimp only
  rw [if_pos ⟨.inl rfl, by omega⟩, hdup]
  unfold Table.closed at hok ⊢
  rw [hok]

/-- `ino_lock` returns. -/
theorem inoLocked_moves (hl : Last u) (hb : Backed t u) {fp : ℕ} (hi : i < nofile) (hopen : u.u_ofile i = some fp)
    (hrval : u.u_rval = i) (error : Option Errno) (h : inoLocked t u i fp error = some (t', u')) :
    Moves t u t' (some u') := by
  cases error with
  | none =>
    cases h
    subst hrval
    have hnamed : u.u_ofile u.u_rval ≠ none := by
      rw [hopen]
      nofun
    exact .still (fun _ => rfl) rfl rfl rfl hl fun _ => ⟨hi, hnamed⟩
  | some error =>
    obtain ⟨⟨t₁, sleeps⟩, hclose, hrest⟩ := Option.map_eq_some_iff.mp h
    cases sleeps with
    | true =>
      cases hrest
      obtain ⟨hone, hsame⟩ := closef_last hb hi hopen hclose
      exact .still hsame rfl rfl rfl hl ⟨hone, hi, hopen⟩
    | false =>
      obtain ⟨rfl, rfl⟩ := Prod.mk.inj hrest
      have hstart : Moves t u t (some { u with phase := .user }) := .still (fun _ => rfl) rfl rfl rfl hl trivial
      have hdrop := closef_moves (u := { u with phase := .user }) (hl.congr rfl rfl) hi hopen rfl hclose
      exact (hstart.trans rfl hdrop).trans rfl
        (.rest (fun _ => rfl) rfl rfl ⟨(hl.taken i).congr rfl rfl, nofun⟩)

/-- An open after `vn_open_at`. If it is redirected, it is accepted. -/
theorem vnOpened_moves (hl : Last u) {fp : ℕ} {flags : Word} (hi : i < nofile) (hopen : u.u_ofile i = some fp)
    (hone : t.count fp = 1) (hrval : u.u_rval = i) (hdup : u.u_dupfd < 0) (opened : Opened)
    (h : ∀ dev, opened = .fdopen dev → Redirects t u fp flags (dev &&& 0xff).toNat) :
    Moves t u (vnOpened t u i fp flags opened).1 (some (vnOpened t u i fp flags opened).2) := by
  cases opened with
  | inode ip =>
    subst hrval
    have hnamed : u.u_ofile u.u_rval ≠ none := by
      rw [hopen]
      nofun
    unfold vnOpened
    dsimp only
    split_ifs
    · exact .still (fun g => count_same (by rfl) g) rfl rfl rfl hl ⟨hi, hopen, rfl⟩
    · exact .still (fun g => count_same (by rfl) g) rfl rfl rfl hl fun _ => ⟨hi, hnamed⟩
  | failed error => exact failed_moves hl hi hopen hone (by omega)
  | fdopen dev =>
    have hredirect := h dev rfl
    obtain ⟨dfd, hdfd⟩ : ∃ dfd, dfd = (dev &&& 0xff).toNat := ⟨_, rfl⟩
    have hredirect' : Redirects t { u with u_dupfd := dfd } fp flags dfd := by
      rw [hdfd]
      exact hredirect
    have hmove := redirected_moves (u := { u with u_dupfd := dfd }) (hl.congr rfl rfl) hi hopen hone rfl hredirect'
    unfold vnOpened
    rw [hdfd] at hmove
    exact ⟨hmove.count, hmove.gain, hmove.valid⟩

/-! ## exit -/

/-- The descriptors up to `i` are closed with it. -/
theorem passed_slot (hpassed : ∀ k < i, u.u_ofile k = none) : ∀ k < i + 1, (u.slot i none).u_ofile k = none := by
  intro k hk
  unfold User.slot
  dsimp only
  rw [Function.update_apply]
  split_ifs with hki
  · rfl
  · exact hpassed k (by omega)

/-- The loop of `exit`: it closes what lies from `i` on, and at its end nothing is open. -/
theorem exitLoop_moves {n : ℕ} (hl : Last u) (hb : Backed t u) (hpassed : ∀ k < i, u.u_ofile k = none)
    (hend : u.u_lastfile + 1 ≤ i + n) (hin : i + n ≤ nofile) (h : exitLoop n t u i = some (t', v)) :
    Moves t u t' v := by
  induction n generalizing t u i with
  | zero =>
    cases h
    have hnone : ∀ k < nofile, u.u_ofile k = none := by
      intro k hk
      by_contra hopen
      have hle := hl.open_le k hk hopen
      exact hopen (hpassed k (by omega))
    have hslots : ∀ f, u.slots f = 0 := by
      intro f
      by_contra hpos
      obtain ⟨k, hk, hnamed⟩ := slots_pos.mp (Nat.pos_of_ne_zero hpos)
      rw [hnone k hk] at hnamed
      cases hnamed
    refine ⟨fun f => by rw [hslots, heldBy_none], fun f hpos => ?_, fun v hv => ?_⟩
    · rw [heldBy_none] at hpos
      exact absurd hpos (Nat.lt_irrefl 0)
    · cases hv
  | succ n ih =>
    obtain ⟨u₁, hu₁⟩ : ∃ u₁ : User, u₁ = { u.slot i none with u_pofile := update u.u_pofile i 0 } := ⟨_, rfl⟩
    have hofile : u₁.u_ofile = update u.u_ofile i none := by rw [hu₁]; rfl
    have hlast₁ : u₁.u_lastfile = u.u_lastfile := by rw [hu₁]; rfl
    have hl₁ : Last u₁ := (hl.taken i).congr hofile hlast₁
    have hpassed₁ : ∀ k < i + 1, u₁.u_ofile k = none := by
      rw [hofile]
      exact passed_slot hpassed
    have hend₁ : u₁.u_lastfile + 1 ≤ (i + 1 : ℕ) + n := by
      rw [hlast₁]
      push_cast at hend ⊢
      omega
    have hslots : ∀ g, u₁.slots g + same (u.u_ofile i) g = u.slots g := by
      intro g
      have hg := names_update (g := u.u_ofile) (v := g) (show i < nofile by omega) none
      rw [← hofile] at hg
      exact hg
    unfold exitLoop at h
    dsimp only at h
    rw [← hu₁] at h
    split at h
    · rename_i hfree
      simp only [hfree, same_none, Nat.add_zero] at hslots
      have hmove := ih hl₁ (fun f => by rw [hslots]; exact hb f) hpassed₁ hend₁ (by omega) h
      refine ⟨fun f => ?_, fun f hf => ?_, hmove.valid⟩
      · rw [← hslots]
        exact hmove.count f
      · rw [← hslots]
        exact hmove.gain f hf
    rename_i f hopen
    split at h
    · cases h
    · rename_i t₁ hclose
      obtain ⟨hmany, hcount⟩ := closef_some hclose
      have hdrop : ∀ g, t₁.count g + u.slots g = t.count g + u₁.slots g := by
        intro g
        have hg := hslots g
        rw [hopen] at hg
        rw [hcount]
        by_cases hgf : g = f
        · rw [hgf, same_self] at hg
          rw [if_pos hgf, hgf]
          omega
        · rw [same_of_ne (Ne.symm hgf)] at hg
          rw [if_neg hgf]
          omega
      have hmove := ih hl₁ (fun g => by have hg := hdrop g; have hle := hb g; omega) hpassed₁ hend₁ (by omega) h
      refine ⟨fun g => ?_, fun g hg => ?_, hmove.valid⟩
      · have hg := hdrop g
        have hc := hmove.count g
        omega
      · have hd := hdrop g
        rcases hmove.gain g hg with hpos | hzero
        · have hs := hslots g
          exact .inl (by omega)
        · exact (Nat.eq_zero_or_pos (u.slots g)).elim (fun hz => .inr (by omega)) .inl
    · rename_i t₁ hclose
      subst hu₁
      cases h
      obtain ⟨hone, hsame⟩ := closef_last hb (show i < nofile by omega) hopen hclose
      simp only [hopen] at hslots
      refine ⟨fun g => ?_, fun g hg => .inl ?_, ?_⟩
      · rw [hsame, heldBy_some]
        exact congrArg (t.count g + ·) (hslots g).symm
      · rw [← hslots g]
        exact hg
      · rintro v ⟨rfl⟩
        exact ⟨hl₁.congr rfl rfl, hone, by omega, hpassed₁⟩

theorem exitFrom_moves (hl : Last u) (hb : Backed t u) (hpassed : ∀ k < i, u.u_ofile k = none)
    (hi : i ≤ nofile) (h : exitFrom t u i = some (t', v)) : Moves t u t' v := by
  have hlow := hl.low
  have hhigh := hl.high
  by_cases hle : u.u_lastfile + 1 ≤ i
  · have hzero : (u.u_lastfile + 1 - i).toNat = 0 := by omega
    unfold exitFrom at h
    rw [hzero] at h
    exact exitLoop_moves hl hb hpassed (by push_cast; omega) (by omega) h
  · exact exitLoop_moves hl hb hpassed (by omega) (by omega) h

/-! ## After fo_close -/

/-- A call that goes on where its process may be closing an entry. -/
structure Goes (t : Table) (u : User) (t' : Table) (u' : Option User) : Prop where
  count : ∀ f, t'.count f + u.held f = t.count f + heldBy u' f
  gain : ∀ f, 0 < heldBy u' f → 0 < u.held f ∨ t.count f = 0
  valid : ∀ v, u' = some v → Valid t' v

theorem Moves.goes (h : Moves t u t' v) (hleaving : u.leaving = none) : Goes t u t' v := by
  have hheld : ∀ f, u.held f = u.slots f := held_eq rfl hleaving
  refine ⟨fun f => ?_, fun f hf => ?_, h.valid⟩
  · rw [hheld]
    exact h.count f
  · rw [hheld]
    exact h.gain f hf

/-- The entry that was named by no descriptor any more is free, and the call goes on from there. -/
theorem Moves.closed {fp : ℕ} (h : Moves (t.closed fp) u t' v) (hone : t.count fp = 1) (hleaving : u.leaving = some fp)
    (hslots : u.slots fp = 0) : Goes t u t' v := by
  have hheld : ∀ f, u.held f = u.slots f + same (some fp) f := fun f => congrArg (fun x => u.slots f + same x f) hleaving
  refine ⟨fun f => ?_, fun f hf => ?_, h.valid⟩
  · have hc := h.count f
    rw [count_closed] at hc
    rw [hheld]
    by_cases hf : f = fp
    · rw [if_pos hf] at hc
      rw [hf] at hc ⊢
      rw [same_self]
      omega
    · rw [if_neg hf] at hc
      rw [same_of_ne (Ne.symm hf)]
      omega
  · rw [hheld]
    rcases h.gain f hf with hpos | hzero
    · exact .inl (by omega)
    · rw [count_closed] at hzero
      by_cases hfp : f = fp
      · rw [hfp, same_self]
        exact .inl (by omega)
      · rw [if_neg hfp] at hzero
        exact .inr hzero

/-- The end of `closef`, and what its caller does then. -/
theorem foClosed_goes (hv : Valid t u) {fp : ℕ} {error : Option Errno} {after : After}
    (hphase : u.phase = .closing fp after) (hb : ∀ f, u.held f ≤ t.count f)
    (h : foClosed t u fp error after = some (t', v)) : Goes t u t' v := by
  have hl := hv.last
  have hp := hv.phased
  unfold Phased at hp
  rw [hphase] at hp
  obtain ⟨hone, hafter⟩ := hp
  have hheld := hb fp
  have hleft : u.leaving = some fp → u.slots fp = 0 := fun hleaving => by
    unfold User.held at hheld
    rw [hleaving, same_self] at hheld
    omega
  cases after with
  | close =>
    cases h
    have hleaving : u.leaving = some fp := by
      unfold User.leaving
      rw [hphase]
    have hslots := hleft hleaving
    have hmove : Moves (t.closed fp) u (t.closed fp) (some { u with u_error := error, phase := .user }) :=
      .still (fun _ => rfl) rfl rfl rfl hl trivial
    exact hmove.closed hone hleaving hslots
  | exit i =>
    have hleaving : u.leaving = some fp := by
      unfold User.leaving
      rw [hphase]
    have hslots := hleft hleaving
    have hb' : Backed (t.closed fp) u := by
      intro f
      rw [count_closed]
      split_ifs with hf
      · rw [hf, hslots]
      · exact Nat.le_trans (Nat.le_add_right _ _) (hb f)
    exact (exitFrom_moves hl hb' hafter.2 hafter.1 h).closed hone hleaving hslots
  | copen indx e =>
    cases h
    have hleaving : u.leaving = none := by
      unfold User.leaving
      rw [hphase]
    have hmove : Moves t u (t.closed fp) (some ((u.slot indx none).opens (some e))) :=
      giveUp_moves hl hafter.1 hafter.2 hone rfl rfl rfl nofun
    exact hmove.goes hleaving
  | dup2 fp' i j =>
    have hleaving : u.leaving = none := by
      unfold User.leaving
      rw [hphase]
    obtain ⟨hi, hj, hnamed, hold, hne⟩ := hafter
    have hother : fp' ≠ fp := by
      rintro rfl
      have htwo : 2 ≤ u.slots fp' := two_le_names hi hj hne hnamed hold
      have hle : u.slots fp' ≤ u.held fp' := Nat.le_add_right _ _
      omega
    cases h
    -- The descriptor is free, and then it is given the other's entry.
    obtain ⟨u₁, hofile, hlast, hphase₁, hgive⟩ := freed_moves hl hj hold hone
    have hheld₁ : 0 < u₁.slots fp' := by
      refine slots_of_some hi ?_
      rw [hofile, Function.update_of_ne hne]
      exact hnamed
    obtain ⟨u₂, hu₂⟩ : ∃ u₂, u₂ =
      (dupit (t.closed fp) { u with phase := .user } j fp' (u.u_pofile i &&& ~~~ufExclose)).2 := ⟨_, rfl⟩
    have hphase₂ : u₂.phase = .user := by rw [hu₂]; rfl
    have hshare : Moves (t.closed fp) u₁
        (dupit (t.closed fp) { u with phase := .user } j fp' (u.u_pofile i &&& ~~~ufExclose)).1 (some u₂) := by
      refine share_moves (hgive.valid u₁ rfl).last hj ?_ hheld₁ (fun _ => count_set _) ?_ ?_ (leaving_user hphase₂)
        (phased_user hphase₂)
      · rw [hofile, Function.update_self]
      · rw [hu₂, hofile, Function.update_idem]
        rfl
      · rw [hu₂, hlast]
        rfl
    rw [hu₂] at hshare
    exact (hgive.trans (leaving_user hphase₁) hshare).goes hleaving

end

end DiscoBSD.Fdesc
