import Mathlib
import DiscoBSD.Fdesc.Calls
import DiscoBSD.Lib.Runs

/-!
# The counts in every run

**`f_count` is the number of descriptors that name an entry, and of the closes of it that are under way.** No run
breaks that but one in which a tracer kills a process in the middle of a `close`. An open that reports success
leaves an open descriptor, unless `fdopen` sent it to one that it may not share.
-/

set_option autoImplicit false

namespace DiscoBSD.Fdesc

open DiscoBSD.Lib
open Function (update)

section

variable {π : Type} [Fintype π]

/-- How many descriptors of all the processes name the entry. -/
def System.refs (s : System π) (f : ℕ) : ℕ := ∑ p, (s.proc p).elim 0 (·.slots f)

/-- How many processes are closing the entry and have it in no descriptor any more. -/
def System.closings (s : System π) (f : ℕ) : ℕ := ∑ p, (s.proc p).elim 0 (same ·.leaving f)

structure Sound (nfile : ℕ) (s : System π) : Prop where
  counted : ∀ f, s.table.count f = s.refs f + s.closings f
  lastfile : ∀ p u, s.proc p = some u → ∀ i < nofile, u.u_ofile i ≠ none → (i : ℤ) ≤ u.u_lastfile
  reuse : ∀ f, s.table.free nfile = some f → s.table.count f = 0 ∧ s.refs f = 0 ∧ s.closings f = 0
  opened : ∀ p u, s.proc p = some u → u.phase = .opened → u.u_error = none →
    u.u_rval < nofile ∧ ∃ f, u.u_ofile u.u_rval = some f ∧ 0 < s.table.count f

/-- An open that `fdopen` redirects may share the other descriptor's entry: that is open, is not the new descriptor
    itself, and its entry has the modes that the open asks for. And no process is killed in the middle of a
    `close`. -/
def SafeAct (t : Table) (u : User) : Act → Prop
  | .vnOpen (.fdopen dev) => ∀ indx fp flags, u.phase = .opening indx fp flags →
      Redirects t u fp flags (dev &&& 0xff).toNat
  | .kill => ∀ fp, u.phase ≠ .closing fp .close
  | _ => True

def SafeEvent (s : System π) : Event π → Prop
  | .act p act => ∀ u, s.proc p = some u → SafeAct s.table u act
  | _ => True

/-- The invariant. -/
structure Inv (s : System π) : Prop where
  counted : ∀ f, s.table.count f = ∑ p, heldBy (s.proc p) f
  valid : ∀ p u, s.proc p = some u → Valid s.table u

variable {nfile : ℕ} {s s' : System π}

theorem sum_held (s : System π) (f : ℕ) : ∑ p, heldBy (s.proc p) f = s.refs f + s.closings f := by
  unfold System.refs System.closings
  rw [← Finset.sum_add_distrib]
  refine Finset.sum_congr rfl fun p _ => ?_
  cases s.proc p with
  | none => rfl
  | some u => rfl

theorem Inv.held_le (h : Inv s) {p : π} {u : User} (hu : s.proc p = some u) (f : ℕ) : u.held f ≤ s.table.count f := by
  have hle : heldBy (s.proc p) f ≤ ∑ q, heldBy (s.proc q) f := le_sum (fun q => heldBy (s.proc q) f) p
  rwa [← h.counted f, hu] at hle

theorem Inv.sound (h : Inv s) (nfile : ℕ) : Sound nfile s := by
  have hcounted : ∀ f, s.table.count f = s.refs f + s.closings f := fun f => (h.counted f).trans (sum_held s f)
  refine ⟨hcounted, fun p u hu => (h.valid p u hu).last.open_le, fun f hf => ?_, fun p u hu hphase herror => ?_⟩
  · have hzero := free_some hf
    have hsum := hcounted f
    exact ⟨hzero, by omega, by omega⟩
  · have hp := (h.valid p u hu).phased
    unfold Phased at hp
    rw [hphase] at hp
    obtain ⟨hlt, hopen⟩ := hp herror
    obtain ⟨f, hf⟩ := Option.ne_none_iff_exists'.mp hopen
    refine ⟨hlt, f, hf, ?_⟩
    have hpos := slots_of_some hlt hf
    have hheld : u.slots f ≤ u.held f := Nat.le_add_right _ _
    have hle := h.held_le hu f
    omega

/-- What the phase of a process says stays true as long as the entries stay that only it refers to. -/
theorem Phased.frame {t t' : Table} {u : User} (h : Phased t u)
    (hkeep : ∀ f, t.count f = 1 → 0 < u.held f → t'.count f = 1) : Phased t' u := by
  have hslot : ∀ f i, i < nofile → u.u_ofile i = some f → 0 < u.held f := fun f i hi hf =>
    Nat.lt_of_lt_of_le (slots_of_some hi hf) (Nat.le_add_right _ _)
  unfold Phased at h ⊢
  cases hphase : u.phase with
  | user => trivial
  | opened =>
    rw [hphase] at h
    exact h
  | opening indx fp flags =>
    rw [hphase] at h
    obtain ⟨hi, hopen, hone, hrest⟩ := h
    exact ⟨hi, hopen, hkeep fp hone (hslot fp indx hi hopen), hrest⟩
  | locking indx fp =>
    rw [hphase] at h
    exact h
  | closing fp after =>
    rw [hphase] at h
    obtain ⟨hone, hafter⟩ := h
    refine ⟨hkeep fp hone ?_, hafter⟩
    have hleaving : after = .close ∨ (∃ i, after = .exit i) → 0 < u.held fp := by
      intro hwho
      have hself : u.leaving = some fp := by
        unfold User.leaving
        rw [hphase]
        rcases hwho with rfl | ⟨i, rfl⟩ <;> rfl
      unfold User.held
      rw [hself, same_self]
      exact Nat.succ_pos _
    cases after with
    | close => exact hleaving (.inl rfl)
    | copen indx error => exact hslot fp indx hafter.1 hafter.2
    | dup2 fp' i j => exact hslot fp j hafter.2.1 hafter.2.2.2.1
    | exit i => exact hleaving (.inr ⟨i, rfl⟩)

/-! ## One process goes on -/

section

variable {t t' : Table} {u : User} {v : Option User}

/-- What a call does is what it does to the descriptors. -/
theorem Moves.congr {u₁ : User} (h : Moves t u₁ t' v) (hofile : u₁.u_ofile = u.u_ofile) : Moves t u t' v := by
  have hslots : ∀ f, u₁.slots f = u.slots f := fun f => by
    unfold User.slots
    rw [hofile]
  refine ⟨fun f => ?_, fun f hf => ?_, h.valid⟩
  · rw [← hslots]
    exact h.count f
  · rw [← hslots]
    exact h.gain f hf

theorem runCall_moves (hl : Last u) (hb : Backed t u) (hphase : u.phase = .user) {c : Call}
    (h : runCall nfile t u c = some (t', v)) : Moves t u t' v := by
  have hmap : ∀ {x : Option (Table × User)}, x.map (Prod.map id some) = some (t', v) →
      ∃ u', x = some (t', u') ∧ v = some u' := by
    intro x hx
    obtain ⟨⟨t₁, u'⟩, hx', heq⟩ := Option.map_eq_some_iff.mp hx
    obtain ⟨rfl, rfl⟩ := Prod.mk.inj heq
    exact ⟨u', hx', rfl⟩
  cases c with
  | copen mode entered =>
    cases h
    exact copen_moves hl hphase mode entered
  | dup i j =>
    obtain ⟨u', hok, rfl⟩ := hmap h
    exact dup_moves hl hb hphase hok
  | dup2 i j =>
    obtain ⟨u', hok, rfl⟩ := hmap h
    exact dup2_moves hl hb hphase hok
  | dupfd fdes arg =>
    cases h
    exact dupfd_moves hl hphase fdes arg
  | close i =>
    obtain ⟨u', hok, rfl⟩ := hmap h
    exact close_moves hl hb hphase hok
  | pipe ip =>
    cases h
    exact pipe_moves hl hphase ip
  | exit => exact exitFrom_moves hl hb (fun k hk => absurd hk k.not_lt_zero) (Nat.zero_le _) h
  | other =>
    cases h
    exact .rest (fun _ => rfl) rfl (leaving_user hphase) ⟨hl, phased_user hphase⟩

theorem act_goes (hv : Valid t u) (hheld : ∀ f, u.held f ≤ t.count f) {act : Act} (hsafe : SafeAct t u act)
    (h : u.act nfile t act = some (t', v)) : Goes t u t' v := by
  have hl := hv.last
  have hp := hv.phased
  have hb : Backed t u := fun f => Nat.le_trans (Nat.le_add_right _ _) (hheld f)
  unfold Phased at hp
  unfold User.act at h
  cases act with
  | call c =>
    have hmoves : runCall nfile t { u with u_rval := 0, u_error := none, phase := .user } c = some (t', v) →
        Moves t u t' v := fun hrun =>
      (runCall_moves (u := { u with u_rval := 0, u_error := none, phase := .user }) (hl.congr rfl rfl) hb rfl hrun).congr
        rfl
    cases hphase : u.phase with
    | user =>
      simp only [hphase] at h
      exact (hmoves h).goes (leaving_user hphase)
    | opened =>
      simp only [hphase] at h
      refine (hmoves h).goes ?_
      unfold User.leaving
      rw [hphase]
    | opening indx fp flags =>
      simp only [hphase] at h
      cases h
    | locking indx fp =>
      simp only [hphase] at h
      cases h
    | closing fp after =>
      simp only [hphase] at h
      cases h
  | vnOpen opened =>
    dsimp only at h
    split at h
    · rename_i indx fp flags hphase
      cases h
      rw [hphase] at hp
      obtain ⟨hi, hopen, hone, hrval, hdup⟩ := hp
      refine (vnOpened_moves hl hi hopen hone hrval hdup opened ?_).goes ?_
      · rintro dev rfl
        exact hsafe indx fp flags hphase
      · unfold User.leaving
        rw [hphase]
    · cases h
  | inoLock error =>
    dsimp only at h
    split at h
    · rename_i indx fp hphase
      rw [hphase] at hp
      obtain ⟨hi, hopen, hrval⟩ := hp
      obtain ⟨⟨t₁, u'⟩, hok, heq⟩ := Option.map_eq_some_iff.mp h
      obtain ⟨rfl, rfl⟩ := Prod.mk.inj heq
      refine (inoLocked_moves hl hb hi hopen hrval error hok).goes ?_
      unfold User.leaving
      rw [hphase]
    · cases h
  | foClose error =>
    dsimp only at h
    split at h
    · rename_i fp after hphase
      exact foClosed_goes hv hphase hheld h
    · cases h
  | kill =>
    have hexit : exitFrom t u 0 = some (t', v) → u.leaving = none → Goes t u t' v := fun hrun hleaving =>
      (exitFrom_moves hl hb (fun k hk => absurd hk k.not_lt_zero) (Nat.zero_le _) hrun).goes hleaving
    have hleaving : ∀ {fp after}, u.phase = .closing fp after → (∀ i, after ≠ .exit i) → u.leaving = none := by
      intro fp after hphase hne
      unfold User.leaving
      rw [hphase]
      cases after with
      | close => exact absurd hphase (hsafe fp)
      | copen indx error => rfl
      | dup2 fp' i j => rfl
      | exit i => exact absurd rfl (hne i)
    cases hphase : u.phase with
    | user =>
      simp only [hphase] at h
      cases h
    | opened =>
      simp only [hphase] at h
      cases h
    | opening indx fp flags =>
      simp only [hphase] at h
      refine hexit h ?_
      unfold User.leaving
      rw [hphase]
    | locking indx fp =>
      simp only [hphase] at h
      refine hexit h ?_
      unfold User.leaving
      rw [hphase]
    | closing fp after =>
      simp only [hphase] at h
      split at h
      · cases h
      · cases h
      · rename_i hne _
        exact hexit h (hleaving hphase hne)

end

/-! ## The system -/

variable [DecidableEq π]

/-- One process goes on, and the invariant holds of all. -/
theorem Inv.goes (h : Inv s) {p : π} {u : User} (hu : s.proc p = some u) {t' : Table} {v : Option User}
    (hgoes : Goes s.table u t' v) : Inv ⟨t', update s.proc p v⟩ := by
  refine ⟨fun f => ?_, fun q w hw => ?_⟩
  · have hsum := sum_update (heldBy · f) s.proc p v
    have hcount := hgoes.count f
    have hcounted := h.counted f
    rw [hu, heldBy_some] at hsum
    dsimp only
    omega
  · have hw : update s.proc p v q = some w := hw
    by_cases hq : q = p
    · subst hq
      rw [Function.update_self] at hw
      exact hgoes.valid w hw
    · have hw' : s.proc q = some w := by rwa [Function.update_of_ne hq] at hw
      have hvalid := h.valid q w hw'
      refine ⟨hvalid.last, hvalid.phased.frame fun f hone hpos => ?_⟩
      -- Nobody else refers to it, so the process that goes on does not.
      have hle : heldBy (s.proc p) f + heldBy (s.proc q) f ≤ s.table.count f :=
        (add_le_sum (F := fun r => heldBy (s.proc r) f) (Ne.symm hq)).trans_eq (h.counted f).symm
      rw [hu, hw', heldBy_some, heldBy_some] at hle
      have hcount := hgoes.count f
      have hnone : heldBy v f = 0 := by
        by_contra hne
        rcases hgoes.gain f (Nat.pos_of_ne_zero hne) with hgot | hzero <;> omega
      show t'.count f = 1
      omega

/-- `fork` counts each descriptor of the parent once more. -/
theorem count_shares (t : Table) {u : User} (hl : Last u) (f : ℕ) : (t.shares u).count f = t.count f + u.slots f := by
  have hloop : ∀ g : Table → ℕ → Table, (∀ t n, u.u_ofile n = none → g t n = t) →
      (∀ t n fp, u.u_ofile n = some fp → g t n = t.set fp { t.file fp with f_count := (t.file fp).f_count + 1 }) →
      ∀ n, ((List.range n).foldl g t).count f = t.count f + names u.u_ofile f n := by
    intro g hnone hsome n
    induction n with
    | zero => rfl
    | succ n ih =>
      rw [List.range_succ, List.foldl_append, List.foldl_cons, List.foldl_nil]
      unfold names
      cases hn : u.u_ofile n with
      | none =>
        rw [hnone _ n hn]
        exact ih
      | some fp =>
        rw [hsome _ n fp hn, count_set]
        by_cases hfp : f = fp
        · rw [if_pos hfp, hfp, same_self]
          rw [hfp] at ih
          exact congrArg (· + 1) ih
        · rw [if_neg hfp, ih, same_of_ne (Ne.symm hfp)]
          rfl
  have hhigh := hl.high
  refine (hloop _ (fun t n h => by rw [h]) (fun t n fp h => by rw [h]) _).trans (congrArg (t.count f + ·) (names_of_le (by omega) fun i hle hi => ?_).symm)
  by_contra hopen
  have hlast := hl.open_le i hi hopen
  omega

/-- A process that is not in a call. -/
def User.idle (u : User) : User := { u with u_rval := 0, u_error := none, phase := .user }

theorem Inv.fork (h : Inv s) {p child : π} {u : User} (hu : s.proc p = some u) (hidle : u.leaving = none)
    (hchild : s.proc child = none) :
    Inv ⟨s.table.shares u.idle, update (update s.proc p (some u.idle)) child (some u.idle)⟩ := by
  have hl : Last u.idle := (h.valid p u hu).last.congr rfl rfl
  have hheld : ∀ f, u.held f = u.idle.slots f := held_eq (u := u.idle) rfl hidle
  have hne : child ≠ p := by
    rintro rfl
    rw [hu] at hchild
    cases hchild
  refine ⟨fun f => ?_, fun q w hw => ?_⟩
  · have hsame : ∑ q, heldBy (update s.proc p (some u.idle) q) f = ∑ q, heldBy (s.proc q) f := by
      refine Finset.sum_congr rfl fun q _ => ?_
      by_cases hq : q = p
      · rw [hq, Function.update_self, hu, heldBy_some, heldBy_some, hheld]
        rfl
      · rw [Function.update_of_ne hq]
    have hsum := sum_update (heldBy · f) (update s.proc p (some u.idle)) child (some u.idle)
    rw [Function.update_of_ne hne, hchild, heldBy_none, Nat.add_zero, hsame, ← h.counted f, heldBy_some] at hsum
    dsimp only
    rw [count_shares _ hl, hsum]
    rfl
  · have hw : update (update s.proc p (some u.idle)) child (some u.idle) q = some w := hw
    by_cases hc : q = child
    · rw [hc, Function.update_self] at hw
      cases hw
      exact ⟨hl, trivial⟩
    rw [Function.update_of_ne hc] at hw
    by_cases hq : q = p
    · rw [hq, Function.update_self] at hw
      cases hw
      exact ⟨hl, trivial⟩
    rw [Function.update_of_ne hq] at hw
    have hvalid := h.valid q w hw
    refine ⟨hvalid.last, hvalid.phased.frame fun f hone hpos => ?_⟩
    have hle : heldBy (s.proc p) f + heldBy (s.proc q) f ≤ s.table.count f :=
      (add_le_sum (F := fun r => heldBy (s.proc r) f) (Ne.symm hq)).trans_eq (h.counted f).symm
    rw [hu, hw, heldBy_some, heldBy_some, hheld] at hle
    show (s.table.shares u.idle).count f = 1
    rw [count_shares _ hl]
    omega

/-- An open that is redirected in vain returns without an error and with a descriptor that names nothing. -/
theorem unsafe_open {t : Table} {u : User} (hv : Valid t u) {indx fp : ℕ} {flags dev : Word}
    (hphase : u.phase = .opening indx fp flags) (h : ¬ Redirects t u fp flags (dev &&& 0xff).toNat) :
    ∃ t' u', u.act nfile t (.vnOpen (.fdopen dev)) = some (t', some u') ∧ u'.phase = .opened ∧ u'.u_error = none ∧
      u'.u_ofile u'.u_rval = none := by
  have hp := hv.phased
  unfold Phased at hp
  rw [hphase] at hp
  obtain ⟨-, hopen, -, hrval, -⟩ := hp
  obtain ⟨t', hrefuse⟩ := refused_opens (u := { u with u_dupfd := (dev &&& 0xff).toNat }) hopen rfl h
  refine ⟨t', ({ u with u_dupfd := (dev &&& 0xff).toNat }.slot indx none).opens none, ?_, rfl, rfl, ?_⟩
  · unfold User.act
    simp only [hphase, vnOpened]
    rw [← hphase, hrefuse]
    rfl
  · subst hrval
    exact Function.update_self ..

/-- A process that is killed in the middle of a `close` leaves an entry that is counted and that nobody has. -/
theorem unsafe_kill (h : Inv s) {p : π} {u : User} (hu : s.proc p = some u) {fp : ℕ}
    (hphase : u.phase = .closing fp .close) {t' : Table} {v : Option User}
    (hok : u.act nfile s.table .kill = some (t', v)) :
    t'.count fp ≠ ∑ q, heldBy (update s.proc p v q) fp := by
  have hv := h.valid p u hu
  have hp := hv.phased
  unfold Phased at hp
  rw [hphase] at hp
  have hheld : u.held fp = u.slots fp + 1 := by
    have hself : u.leaving = some fp := by
      unfold User.leaving
      rw [hphase]
    unfold User.held
    rw [hself, same_self]
  have hle := h.held_le hu fp
  have hb : Backed s.table u := fun f => Nat.le_trans (Nat.le_add_right _ _) (h.held_le hu f)
  have hexit : exitFrom s.table u 0 = some (t', v) := by
    unfold User.act at hok
    simp only [hphase] at hok
    split at hok
    · cases hok
    · cases hok
    · exact hok
  have hmoves := exitFrom_moves hv.last hb (fun k hk => absurd hk k.not_lt_zero) (Nat.zero_le _) hexit
  have hcount := hmoves.count fp
  have hsum := sum_update (heldBy · fp) s.proc p v
  have hcounted := h.counted fp
  rw [hu, heldBy_some] at hsum
  omega

theorem Inv.step (h : Inv s) {e : Event π} (hok : s.step nfile e = some s') :
    (Sound nfile s' → SafeEvent s e) ∧ (SafeEvent s e → Inv s') := by
  cases e with
  | act p act =>
    obtain ⟨u, hu, hrest⟩ := Option.bind_eq_some_iff.mp hok
    obtain ⟨⟨t', v⟩, hact, heq⟩ := Option.bind_eq_some_iff.mp hrest
    cases heq
    have hv := h.valid p u hu
    refine ⟨fun hsound w hw => ?_, fun hsafe => h.goes hu (act_goes hv (h.held_le hu) (hsafe u hu) hact)⟩
    rw [hu] at hw
    obtain rfl := Option.some.inj hw
    cases act with
    | call c => trivial
    | inoLock error => trivial
    | foClose error => trivial
    | vnOpen opened =>
      cases opened with
      | inode ip => trivial
      | failed error => trivial
      | fdopen dev =>
        intro indx fp flags hphase
        by_contra hnot
        obtain ⟨t₁, u', hact', hopened, herror, hnone⟩ := @unsafe_open nfile _ _ hv _ _ _ _ hphase hnot
        obtain ⟨rfl, rfl⟩ := Prod.mk.inj (Option.some.inj (hact.symm.trans hact'))
        obtain ⟨-, f, hf, -⟩ := hsound.opened p u' (Function.update_self ..) hopened herror
        rw [hnone] at hf
        cases hf
    | kill =>
      intro fp hphase
      have hcounted := hsound.counted fp
      rw [← sum_held] at hcounted
      exact unsafe_kill h hu hphase hact hcounted
  | fork p child =>
    refine ⟨fun _ => trivial, fun _ => ?_⟩
    obtain ⟨u, hu, hrest⟩ := Option.bind_eq_some_iff.mp hok
    dsimp only at hrest
    split_ifs at hrest with hgo
    cases hrest
    refine h.fork hu ?_ (Option.isNone_iff_eq_none.mp hgo.2)
    unfold User.leaving
    rcases hgo.1 with hphase | hphase <;> rw [hphase]
  | flags f flags =>
    refine ⟨fun _ => trivial, fun _ => ?_⟩
    cases hok
    have hsame : ∀ g, (s.table.set f { s.table.file f with f_flag := flags }).count g = s.table.count g :=
      fun g => count_same (by rfl) g
    refine ⟨fun g => (hsame g).trans (h.counted g), fun p u hu => ?_⟩
    have hvalid := h.valid p u hu
    exact ⟨hvalid.last, hvalid.phased.frame fun g hone _ => (hsame g).trans hone⟩

theorem inv_init (p : π) (flags : ℕ → Word) : Inv (System.init p flags) := by
  have hnone : ∀ q f, heldBy ((System.init p flags).proc q) f = 0 := by
    intro q f
    unfold System.init
    dsimp only
    split_ifs
    · unfold heldBy User.held User.slots
      dsimp only [Option.elim]
      have hzero : names (fun _ => (none : Option ℕ)) f nofile = 0 := names_of_le (Nat.zero_le _) fun _ _ _ => rfl
      rw [hzero]
      rfl
    · rfl
  refine ⟨fun f => ?_, fun q u hu => ?_⟩
  · rw [Finset.sum_congr rfl fun q _ => hnone q f, Finset.sum_const_zero]
    rfl
  · unfold System.init at hu
    dsimp only at hu
    split_ifs at hu
    cases hu
    exact ⟨⟨le_rfl, by decide, fun i _ hopen => absurd rfl hopen⟩, trivial⟩

/-- **In every run the counts are the references, entries are handed out at count zero, `u_lastfile` bounds what is
    open and an open that succeeds leaves an open descriptor, exactly as long as the redirects of `fdopen` are
    accepted and no `close` is cut short.** -/
theorem counts_sound (nfile : ℕ) (p : π) (flags : ℕ → Word) (es : List (Event π)) :
    Always (System.step nfile) (Sound nfile) (System.init p flags) es ↔
      Each (System.step nfile) SafeEvent (System.init p flags) es :=
  always_iff_each (fun _ h => h.sound nfile) (fun _ _ _ h hok => h.step hok) (inv_init p flags) es

/-- `/dev/fd/5` is opened and descriptor 5 is not open. -/
theorem open_names_nothing :
    ¬ Always (System.step 24) (Sound 24) (System.init (0 : Fin 1) fun _ => 0)
      [.act 0 (.call (.copen 0 none)), .act 0 (.vnOpen (.fdopen 0x1605))] := by
  intro halways
  have hrun : (runOn (System.step 24) (System.init (0 : Fin 1) fun _ => 0)
      [.act 0 (.call (.copen 0 none)), .act 0 (.vnOpen (.fdopen 0x1605))]).map
      (fun s => (s.proc 0).map fun u => (u.phase, u.u_error, u.u_ofile u.u_rval)) =
        some (some (.opened, none, none)) := by
    decide +kernel
  obtain ⟨s, hs, hproc⟩ := Option.map_eq_some_iff.mp hrun
  obtain ⟨u, hu, heq⟩ := Option.map_eq_some_iff.mp hproc
  obtain ⟨hphase, herror, hnone⟩ : u.phase = .opened ∧ u.u_error = none ∧ u.u_ofile u.u_rval = none := by
    simpa using heq
  obtain ⟨-, f, hf, -⟩ := (halways.runOn hs).opened 0 u hu hphase herror
  rw [hnone] at hf
  cases hf

end

end DiscoBSD.Fdesc
