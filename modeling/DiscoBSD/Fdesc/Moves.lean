import DiscoBSD.Fdesc.State

/-!
# What a call does to the counts

**For each entry, what a call adds to `f_count` is what it adds to the references of its process**, be they
descriptors that name the entry or the close that is under way. A call refers to no entry that its process did not
refer to, but for one that nobody has.
-/

set_option autoImplicit false

namespace DiscoBSD.Fdesc

open DiscoBSD.Lib
open Function (update)

/-! ## References -/

def Table.count (t : Table) (f : ℕ) : ℕ := (t.file f).f_count

/-- How many descriptors of the process name the entry. -/
def User.slots (u : User) (f : ℕ) : ℕ := names u.u_ofile f nofile

/-- The entry that the process is closing and that none of its descriptors names any more. -/
def User.leaving (u : User) : Option ℕ :=
  match u.phase with
  | .closing fp .close | .closing fp (.exit _) => some fp
  | _ => none

/-- The references of a process. -/
def User.held (u : User) (f : ℕ) : ℕ := u.slots f + same u.leaving f

/-- The references of a process that may be gone. -/
def heldBy (u : Option User) (f : ℕ) : ℕ := u.elim 0 (·.held f)

@[simp] theorem heldBy_none (f : ℕ) : heldBy none f = 0 := rfl

@[simp] theorem heldBy_some (u : User) (f : ℕ) : heldBy (some u) f = u.held f := rfl

section

variable {t t' t₁ : Table} {u u' u₁ : User} {f g i j : ℕ}

@[simp] theorem count_set (file : File) : (t.set f file).count g = if g = f then file.f_count else t.count g := by
  unfold Table.count Table.set
  dsimp only
  rw [Function.update_apply]
  split_ifs <;> rfl

theorem slots_slot (hi : i < nofile) (x : Option ℕ) (f : ℕ) :
    (u.slot i x).slots f + same (u.u_ofile i) f = u.slots f + same x f := names_update hi x

theorem slots_pos : 0 < u.slots f ↔ ∃ i < nofile, u.u_ofile i = some f := names_pos

/-- A descriptor of the process names the entry. -/
theorem slots_of_some (hi : i < nofile) (h : u.u_ofile i = some f) : 0 < u.slots f := slots_pos.mpr ⟨i, hi, h⟩

/-- What is open lies below `u_lastfile`, and that is a descriptor or -1. -/
structure Last (u : User) : Prop where
  low : -1 ≤ u.u_lastfile
  high : u.u_lastfile < nofile
  open_le : ∀ i < nofile, u.u_ofile i ≠ none → (i : ℤ) ≤ u.u_lastfile

/-- What the phase of a process says of its descriptors. -/
def Phased (t : Table) (u : User) : Prop :=
  match u.phase with
  | .user => True
  | .opened => u.u_error = none → u.u_rval < nofile ∧ u.u_ofile u.u_rval ≠ none
  | .opening indx fp _ =>
    indx < nofile ∧ u.u_ofile indx = some fp ∧ t.count fp = 1 ∧ u.u_rval = indx ∧ u.u_dupfd < 0
  | .locking indx fp => indx < nofile ∧ u.u_ofile indx = some fp ∧ u.u_rval = indx
  | .closing fp after => t.count fp = 1 ∧
    match after with
    | .close => True
    | .copen indx _ => indx < nofile ∧ u.u_ofile indx = some fp
    | .dup2 fp' i j => i < nofile ∧ j < nofile ∧ u.u_ofile i = some fp' ∧ u.u_ofile j = some fp ∧ i ≠ j
    | .exit i => i ≤ nofile ∧ ∀ k < i, u.u_ofile k = none

structure Valid (t : Table) (u : User) : Prop where
  last : Last u
  phased : Phased t u

/-- A call that begins outside the kernel, or goes on where its process has no other reference than its
    descriptors. -/
structure Moves (t : Table) (u : User) (t' : Table) (u' : Option User) : Prop where
  count : ∀ f, t'.count f + u.slots f = t.count f + heldBy u' f
  gain : ∀ f, 0 < heldBy u' f → 0 < u.slots f ∨ t.count f = 0
  valid : ∀ v, u' = some v → Valid t' v

theorem Last.congr (hl : Last u) (hofile : u'.u_ofile = u.u_ofile) (hlast : u'.u_lastfile = u.u_lastfile) : Last u' := by
  refine ⟨?_, ?_, ?_⟩
  · rw [hlast]
    exact hl.low
  · rw [hlast]
    exact hl.high
  · rw [hlast, hofile]
    exact hl.open_le

theorem held_eq (hofile : u'.u_ofile = u.u_ofile) (hleaving : u'.leaving = none) (f : ℕ) : u'.held f = u.slots f := by
  unfold User.held User.slots
  rw [hofile, hleaving]
  rfl

theorem leaving_user (h : u.phase = .user) : u.leaving = none := by
  unfold User.leaving
  rw [h]

theorem phased_user (h : u.phase = .user) : Phased t u := by
  unfold Phased
  rw [h]
  trivial

/-- One descriptor changes. -/
theorem held_slot (w : User) (hi : i < nofile) {x : Option ℕ} (hofile : w.u_ofile = update u.u_ofile i x)
    (hleaving : w.leaving = none) (f : ℕ) : w.held f + same (u.u_ofile i) f = u.slots f + same x f := by
  have hheld : w.held f = (u.slot i x).slots f := held_eq (u := u.slot i x) hofile hleaving f
  rw [hheld]
  exact slots_slot hi x f

/-- No count changes, and no descriptor. -/
theorem Moves.rest (hfile : ∀ f, t'.count f = t.count f) (hofile : u'.u_ofile = u.u_ofile)
    (hleaving : u'.leaving = none) (hv : Valid t' u') : Moves t u t' (some u') := by
  refine ⟨fun f => ?_, fun f hf => .inl ?_, ?_⟩
  · rw [hfile, heldBy_some, held_eq hofile hleaving]
  · rwa [heldBy_some, held_eq hofile hleaving] at hf
  · rintro v ⟨rfl⟩
    exact hv

/-- Nothing changes but what no count depends on. -/
theorem Moves.still (hfile : ∀ f, t'.count f = t.count f) (hofile : u'.u_ofile = u.u_ofile)
    (hlast : u'.u_lastfile = u.u_lastfile) (hleaving : u'.leaving = none) (hl : Last u) (hp : Phased t' u') :
    Moves t u t' (some u') :=
  .rest hfile hofile hleaving ⟨hl.congr hofile hlast, hp⟩

/-- One move after the other. -/
theorem Moves.trans {v : Option User} (h : Moves t u t₁ (some u₁)) (hleaving : u₁.leaving = none)
    (h' : Moves t₁ u₁ t' v) : Moves t u t' v := by
  have hheld : ∀ f, u₁.held f = u₁.slots f := held_eq rfl hleaving
  refine ⟨fun f => ?_, fun f hf => ?_, h'.valid⟩
  · have hc := h.count f
    have hc' := h'.count f
    rw [heldBy_some, hheld] at hc
    omega
  · have hc := h.count f
    rw [heldBy_some, hheld] at hc
    rcases h'.gain f hf with hpos | hzero
    · exact h.gain f (by rwa [heldBy_some, hheld])
    · omega

/-- A call fails. -/
theorem Moves.fail (hl : Last u) (hphase : u.phase = .user) (error : Errno) : Moves t u t (some (u.fail error)) := by
  have hphase' : (u.fail error).phase = .user := hphase
  exact .still (fun _ => rfl) rfl rfl (leaving_user hphase') hl (phased_user hphase')

/-- An open fails. -/
theorem Moves.opens (hl : Last u) (error : Errno) : Moves t u t (some (u.opens (some error))) :=
  .still (fun _ => rfl) rfl rfl rfl hl nofun

/-! ## Allocation -/

/-- A descriptor that is free, from `i` on. -/
theorem ufalloc_some (h : u.ufalloc i = (some j, u')) :
    i ≤ j ∧ j < nofile ∧ u.u_ofile j = none ∧ u' =
      { u with u_rval := j, u_pofile := update u.u_pofile j 0, u_lastfile := max u.u_lastfile j } := by
  unfold User.ufalloc at h
  split at h
  · rename_i k hk
    obtain ⟨hkj, hu⟩ := Prod.mk.inj h
    obtain rfl := Option.some.inj hkj
    have hmem := List.mem_of_find?_eq_some hk
    have hfree := List.find?_some hk
    rw [List.mem_range'_1] at hmem
    exact ⟨hmem.1, by omega, Option.isNone_iff_eq_none.mp hfree, hu.symm⟩
  · cases h

theorem ufalloc_none (h : u.ufalloc i = (none, u')) : u' = { u with u_error := some .emfile } := by
  unfold User.ufalloc at h
  split at h
  · cases h
  · exact (Prod.mk.inj h).2.symm

/-- **An entry is handed out at count zero.** -/
theorem free_some {nfile : ℕ} (h : t.free nfile = some f) : t.count f = 0 := by
  have hzero := List.find?_some h
  exact of_decide_eq_true hzero

theorem falloc_some {nfile : ℕ} (h : falloc nfile t u = (some f, t', u')) :
    ∃ i < nofile, u.u_ofile i = none ∧ t.count f = 0 ∧
      t' = { t.set f { t.file f with f_count := 1, f_data := none } with lastf := f + 1 } ∧
      u' = { u with
        u_ofile := update u.u_ofile i (some f), u_rval := i, u_pofile := update u.u_pofile i 0
        u_lastfile := max u.u_lastfile i } := by
  unfold falloc at h
  split at h
  · cases h
  · rename_i i u₁ hu
    obtain ⟨-, hi, hfree, rfl⟩ := ufalloc_some hu
    split at h
    · cases h
    · rename_i g hg
      obtain ⟨hgf, htu⟩ := Prod.mk.inj h
      obtain ⟨rfl, rfl⟩ := Prod.mk.inj htu
      obtain rfl := Option.some.inj hgf
      exact ⟨i, hi, hfree, free_some hg, rfl, rfl⟩

theorem falloc_none {nfile : ℕ} (h : falloc nfile t u = (none, t', u')) :
    t' = t ∧ u'.u_ofile = u.u_ofile ∧ u'.phase = u.phase ∧ u'.u_error ≠ none ∧ (Last u → Last u') := by
  unfold falloc at h
  split at h
  · rename_i u₁ hu
    obtain rfl := ufalloc_none hu
    obtain ⟨-, htu⟩ := Prod.mk.inj h
    obtain ⟨rfl, rfl⟩ := Prod.mk.inj htu
    exact ⟨rfl, rfl, rfl, nofun, fun hl => ⟨hl.low, hl.high, hl.open_le⟩⟩
  · rename_i i u₁ hu
    obtain ⟨-, hi, -, rfl⟩ := ufalloc_some hu
    split at h
    · obtain ⟨-, htu⟩ := Prod.mk.inj h
      obtain ⟨rfl, rfl⟩ := Prod.mk.inj htu
      refine ⟨rfl, rfl, rfl, nofun, fun hl => ⟨?_, ?_, fun k hk hopen => ?_⟩⟩
      · exact le_max_of_le_left hl.low
      · exact max_lt hl.high (by exact_mod_cast hi)
      · exact le_max_of_le_left (hl.open_le k hk hopen)
    · cases h

/-- A free descriptor is given an entry. -/
theorem Last.given (hl : Last u) (hi : i < nofile) (x : Option ℕ) (pofile : ℕ → BitVec 8) (rval : ℕ) :
    Last { u with
      u_ofile := update u.u_ofile i x, u_rval := rval, u_pofile := pofile, u_lastfile := max u.u_lastfile i } := by
  refine ⟨le_max_of_le_left hl.low, max_lt hl.high (by exact_mod_cast hi), fun k hk hopen => ?_⟩
  by_cases hki : k = i
  · rw [hki]
    exact le_max_right _ _
  · have hsame : update u.u_ofile i x k = u.u_ofile k := Function.update_of_ne hki _ _
    exact le_max_of_le_left (hl.open_le k hk fun hnone => hopen (hsame.trans hnone))

/-- A descriptor is taken away. -/
theorem Last.taken (hl : Last u) (i : ℕ) : Last (u.slot i none) := by
  refine ⟨hl.low, hl.high, fun k hk hopen => hl.open_le k hk fun hnone => hopen ?_⟩
  unfold User.slot
  dsimp only
  rw [Function.update_apply]
  split_ifs
  · rfl
  · exact hnone

/-! ## Closing -/

/-- `closef`: a reference goes, or it is the last one and the entry stays as it is while `fo_close` sleeps. -/
theorem closef_some {sleeps : Bool} (h : t.closef f = some (t', sleeps)) :
    if sleeps then t.count f ≤ 1 ∧ ∀ g, t'.count g = t.count g
    else 1 < t.count f ∧ ∀ g, t'.count g = if g = f then t.count f - 1 else t.count g := by
  unfold Table.closef at h
  dsimp only at h
  by_cases hcount : 1 < (t.file f).f_count
  · rw [if_pos hcount] at h
    obtain ⟨rfl, rfl⟩ := Prod.mk.inj (Option.some.inj h)
    exact ⟨hcount, fun g => count_set _⟩
  · rw [if_neg hcount] at h
    have hsame : ∀ (flag : Word), ∀ g,
        (t.set f { t.file f with f_flag := flag, f_data := none }).count g = t.count g := by
      intro flag g
      rw [count_set]
      split_ifs with hg
      · rw [hg]
        rfl
      · rfl
    split at h
    · cases h
    · split at h
      · obtain ⟨rfl, rfl⟩ := Prod.mk.inj (Option.some.inj h)
        exact ⟨by unfold Table.count; omega, hsame _⟩
      · obtain ⟨rfl, rfl⟩ := Prod.mk.inj (Option.some.inj h)
        exact ⟨by unfold Table.count; omega, fun _ => rfl⟩

theorem count_closed (t : Table) (f g : ℕ) : (t.closed f).count g = if g = f then 0 else t.count g := count_set _

/-- Each reference of the process is counted. -/
def Backed (t : Table) (u : User) : Prop := ∀ f, u.slots f ≤ t.count f

/-- A descriptor is closed that is not the last reference to its entry. -/
theorem closef_moves (hl : Last u) (hi : i < nofile) (hopen : u.u_ofile i = some f) (hphase : u.phase = .user)
    (h : t.closef f = some (t', false)) : Moves t u t' (some (u.slot i none)) := by
  obtain ⟨hcount, hsame⟩ := closef_some h
  have hphase' : (u.slot i none).phase = .user := hphase
  have hheld := held_slot (u := u) (u.slot i none) hi rfl (leaving_user hphase')
  simp only [hopen, same_none] at hheld
  refine ⟨fun g => ?_, fun g hg => .inl ?_, ?_⟩
  · have hg := hheld g
    rw [hsame, heldBy_some]
    by_cases hgf : g = f
    · rw [hgf, same_self] at hg
      rw [if_pos hgf, hgf]
      omega
    · rw [same_of_ne (Ne.symm hgf)] at hg
      rw [if_neg hgf]
      omega
  · have hle := hheld g
    rw [heldBy_some] at hg
    omega
  · rintro v ⟨rfl⟩
    exact ⟨hl.taken i, phased_user hphase'⟩

/-- The last reference. -/
theorem closef_last (hb : Backed t u) (hi : i < nofile) (hopen : u.u_ofile i = some f)
    (h : t.closef f = some (t', true)) : t'.count f = 1 ∧ ∀ g, t'.count g = t.count g := by
  obtain ⟨hcount, hsame⟩ := closef_some h
  have hpos := slots_of_some hi hopen
  have hle := hb f
  refine ⟨?_, hsame⟩
  rw [hsame]
  omega

/-- A descriptor that is free is given an entry that another descriptor names. -/
theorem share_moves (hl : Last u) (hi : i < nofile) (hfree : u.u_ofile i = none) (hheld : 0 < u.slots f)
    (ht : ∀ g, t'.count g = if g = f then t.count f + 1 else t.count g) (hu : u'.u_ofile = update u.u_ofile i (some f))
    (hlast : u'.u_lastfile = max u.u_lastfile i) (hleaving : u'.leaving = none) (hp : Phased t' u') :
    Moves t u t' (some u') := by
  have hslot := held_slot u' hi hu hleaving
  simp only [hfree, same_none] at hslot
  refine ⟨fun g => ?_, fun g hg => .inl ?_, ?_⟩
  · have hg := hslot g
    rw [ht, heldBy_some]
    by_cases hgf : g = f
    · rw [hgf, same_self] at hg
      rw [if_pos hgf, hgf]
      omega
    · rw [same_of_ne (Ne.symm hgf)] at hg
      rw [if_neg hgf]
      omega
  · by_cases hgf : g = f
    · rwa [hgf]
    · have hle := hslot g
      rw [same_of_ne (Ne.symm hgf)] at hle
      rw [heldBy_some] at hg
      omega
  · rintro v ⟨rfl⟩
    exact ⟨(hl.given hi (some f) u.u_pofile u.u_rval).congr hu hlast, hp⟩

theorem dupit_moves (hl : Last u) (hi : i < nofile) (hfree : u.u_ofile i = none) (hphase : u.phase = .user)
    (hheld : 0 < u.slots f) (flags : BitVec 8) : Moves t u (dupit t u i f flags).1 (some (dupit t u i f flags).2) := by
  have hphase' : (dupit t u i f flags).2.phase = .user := hphase
  exact share_moves hl hi hfree hheld (fun _ => count_set _) rfl rfl (leaving_user hphase') (phased_user hphase')

end

end DiscoBSD.Fdesc
