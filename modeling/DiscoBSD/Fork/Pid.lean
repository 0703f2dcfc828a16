import Mathlib.Logic.Relation
import Mathlib.Data.List.Basic

/-!
# The identifier of a new process

The search at the head of `newproc` in `sys/kern/kern_fork.c`. It goes up from the last identifier and
scans the processes for each candidate; `pidchecked` is **the lowest identifier in use above the candidate
when the processes were last scanned**, and below it no scan is made.
-/

set_option autoImplicit false

namespace DiscoBSD.Fork

/-- What the search looks at in a `struct proc`. -/
structure Proc where
  p_pid : Int
  p_pgrp : Int
  deriving DecidableEq, Repr

/-- The processes, the last identifier, and the bound that is kept from one call to the next. -/
structure Table where
  allproc : List Proc
  zombproc : List Proc
  mpid : Int
  pidchecked : Int

/-- A scan leaves its loops for `retry`, or comes to their end. -/
inductive Scan where
  | retry (mpid pidchecked : Int)
  | done (mpid pidchecked : Int)

/-- `pidchecked` behind the two comparisons of a turn. -/
def lowered (child : Proc) (mpid pidchecked : Int) : Int :=
  let pidchecked := if mpid < child.p_pid ∧ child.p_pid < pidchecked then child.p_pid else pidchecked
  if mpid < child.p_pgrp ∧ child.p_pgrp < pidchecked then child.p_pgrp else pidchecked

/-- The loop over a list of processes. After a collision the same process is not looked at again for the
    next candidate. -/
def scan : List Proc → Int → Int → Scan
  | [], mpid, pidchecked => .done mpid pidchecked
  | child :: more, mpid, pidchecked =>
    if child.p_pid = mpid ∨ child.p_pgrp = mpid then
      if pidchecked ≤ mpid + 1 then .retry (mpid + 1) pidchecked
      else scan more (mpid + 1) (lowered child (mpid + 1) pidchecked)
    else scan more mpid (lowered child mpid pidchecked)

/-- The active processes and, `again`, the zombies. -/
def scanBoth (allproc zombproc : List Proc) (mpid pidchecked : Int) : Scan :=
  match scan allproc mpid pidchecked with
  | .retry mpid pidchecked => .retry mpid pidchecked
  | .done mpid pidchecked => scan zombproc mpid pidchecked

/-- The label `retry`, for a number of turns. -/
def retry (allproc zombproc : List Proc) : Nat → Int → Int → Option (Int × Int)
  | 0, _, _ => none
  | turns + 1, mpid, pidchecked =>
    let (mpid, pidchecked) := if 30000 ≤ mpid then (100, 0) else (mpid, pidchecked)
    if pidchecked ≤ mpid then
      match scanBoth allproc zombproc mpid 30000 with
      | .retry mpid pidchecked => retry allproc zombproc turns mpid pidchecked
      | .done mpid pidchecked => some (mpid, pidchecked)
    else some (mpid, pidchecked)

/-- `newproc`, as far as the identifiers go: the child, and the table with it. -/
def newproc (turns : Nat) (parent : Proc) (t : Table) : Option (Proc × Table) :=
  (retry t.allproc t.zombproc turns (t.mpid + 1) t.pidchecked).map fun (mpid, pidchecked) =>
    let child : Proc := ⟨mpid, parent.p_pgrp⟩
    (child, { t with allproc := child :: t.allproc, mpid := mpid, pidchecked := pidchecked })

def Proc.Holds (p : Proc) (v : Int) : Prop := p.p_pid = v ∨ p.p_pgrp = v

instance (p : Proc) (v : Int) : Decidable (p.Holds v) := inferInstanceAs (Decidable (_ ∨ _))

/-- The processes in the order of the scan. -/
def Table.procs (t : Table) : List Proc := t.allproc ++ t.zombproc

def Table.Unused (t : Table) (v : Int) : Prop := ∀ p ∈ t.procs, ¬ p.Holds v

/-! ## The order in which the search gives up candidates -/

/-- The process at a position has the identifier. -/
def HeldAt (T : List Proc) (i : Nat) (v : Int) : Prop := ∃ p, T[i]? = some p ∧ p.Holds v

/-- The first process with the identifier, the one at `before` not counted. -/
structure LeftAt (T : List Proc) (before : Option Nat) (v : Int) (i : Nat) : Prop where
  held : HeldAt T i v
  other : before ≠ some i
  first : ∀ j, j < i → HeldAt T j v → before = some j

/-- A candidate with the position at which the one before it was given up. It is given up in its turn at
    the first process that has it, but for that position. -/
inductive Next (T : List Proc) : Int × Option Nat → Int × Option Nat → Prop
  | up {v : Int} {before : Option Nat} {i : Nat} (h : LeftAt T before v i) (hlt : v + 1 < 30000) :
      Next T (v, before) (v + 1, some i)
  | wrap {v : Int} {before : Option Nat} {i : Nat} (h : LeftAt T before v i) (htop : 30000 ≤ v + 1) :
      Next T (v, before) (100, none)

/-- The candidates of a search. -/
def Reached (T : List Proc) (start : Int) (s : Int × Option Nat) : Prop :=
  Relation.ReflTransGen (Next T) (start, none) s

theorem LeftAt.unique {T : List Proc} {before : Option Nat} {v : Int} {i j : Nat} (hi : LeftAt T before v i)
    (hj : LeftAt T before v j) : i = j := by
  rcases Nat.lt_trichotomy i j with hlt | heq | hgt
  · exact absurd (hj.first i hlt hi.held) hi.other
  · exact heq
  · exact absurd (hi.first j hgt hj.held) hj.other

theorem next_unique (T : List Proc) : Relator.RightUnique (Next T) := by
  intro a b c hb hc
  cases hb with
  | up h hlt =>
    cases hc with
    | up h' _ => rw [h.unique h']
    | wrap _ htop => lia
  | wrap h htop =>
    cases hc with
    | up _ hlt => lia
    | wrap _ _ => rfl

/-- **The search has one end.** -/
theorem reached_end {T : List Proc} {start : Int} {a b : Int × Option Nat} (ha : Reached T start a)
    (hb : Reached T start b) (hno : ∀ c, ¬ Next T a c) (hno' : ∀ c, ¬ Next T b c) : a = b := by
  cases ha.total_of_right_unique (next_unique T) hb with
  | inl h =>
    cases h.cases_head with
    | inl heq => exact heq
    | inr hstep =>
      obtain ⟨c, hc, _⟩ := hstep
      exact absurd hc (hno c)
  | inr h =>
    cases h.cases_head with
    | inl heq => exact heq.symm
    | inr hstep =>
      obtain ⟨c, hc, _⟩ := hstep
      exact absurd hc (hno' c)

/-! ## A scan -/

section
variable {T : List Proc} {start : Int}

/-- The first `i` processes have been scanned, with this outcome so far. -/
structure Seen (T : List Proc) (start : Int) (i : Nat) (mpid pidchecked : Int) (before : Option Nat) :
    Prop where
  reached : Reached T start (mpid, before)
  below : mpid < pidchecked
  top : pidchecked ≤ 30000
  origin : pidchecked = 30000 ∨ ∃ j, j < i ∧ HeldAt T j pidchecked
  bound : ∀ j v, j < i → HeldAt T j v → v ≤ mpid ∨ pidchecked ≤ v
  clear : ∀ j, j < i → HeldAt T j mpid → before = some j
  behind : ∀ k, before = some k → k < i ∨ ∃ j, i ≤ j ∧ j < k ∧ HeldAt T j mpid

/-- A scan starts: a process with the candidate stands in front of where the last one was given up. -/
structure Ready (T : List Proc) (start mpid : Int) (before : Option Nat) : Prop where
  reached : Reached T start (mpid, before)
  low : mpid < 30000
  behind : ∀ k, before = some k → ∃ j, j < k ∧ HeldAt T j mpid

theorem Ready.seen {mpid : Int} {before : Option Nat} (h : Ready T start mpid before) :
    Seen T start 0 mpid 30000 before := by
  refine ⟨h.reached, h.low, Int.le_refl _, .inl rfl, nofun, nofun, ?_⟩
  intro k hk
  obtain ⟨j, hj, hheld⟩ := h.behind k hk
  exact .inr ⟨j, Nat.zero_le j, hj, hheld⟩

theorem lowered_spec (p : Proc) {mpid pidchecked : Int} (h : mpid < pidchecked) :
    lowered p mpid pidchecked ≤ pidchecked ∧ mpid < lowered p mpid pidchecked ∧
      (lowered p mpid pidchecked = pidchecked ∨ p.Holds (lowered p mpid pidchecked)) ∧
      ∀ v, p.Holds v → v ≤ mpid ∨ lowered p mpid pidchecked ≤ v := by
  obtain ⟨pid, pgrp⟩ := p
  simp only [lowered, Proc.Holds]
  refine ⟨?_, ?_, ?_, ?_⟩
  · split_ifs <;> lia
  · split_ifs <;> lia
  · split_ifs <;> lia
  · intro v hv
    split_ifs <;> lia

theorem heldAt_iff {i : Nat} {v : Int} {p : Proc} (hp : T[i]? = some p) : HeldAt T i v ↔ p.Holds v := by
  constructor
  · intro h
    obtain ⟨q, hq, hv⟩ := h
    rw [hp] at hq
    cases hq
    exact hv
  · intro h
    exact ⟨p, hp, h⟩

/-- A turn of the loop over a process that does not have the candidate. -/
theorem Seen.pass {i : Nat} {mpid pidchecked : Int} {before : Option Nat} {p : Proc}
    (h : Seen T start i mpid pidchecked before) (hp : T[i]? = some p) (hno : ¬ p.Holds mpid) :
    Seen T start (i + 1) mpid (lowered p mpid pidchecked) before := by
  obtain ⟨hle, hlt, horigin, hbound⟩ := lowered_spec p h.below
  refine ⟨h.reached, hlt, by have := h.top; lia, ?_, ?_, ?_, ?_⟩
  · cases horigin with
    | inl heq =>
      rw [heq]
      cases h.origin with
      | inl htop => exact .inl htop
      | inr hj =>
        obtain ⟨j, hj, hheld⟩ := hj
        exact .inr ⟨j, by lia, hheld⟩
    | inr hheld => exact .inr ⟨i, Nat.lt_succ_self i, (heldAt_iff hp).mpr hheld⟩
  · intro j v hj hheld
    by_cases heq : j = i
    · subst heq
      exact hbound v ((heldAt_iff hp).mp hheld)
    · cases h.bound j v (by lia) hheld with
      | inl hv => exact .inl hv
      | inr hv => exact .inr (by lia)
  · intro j hj hheld
    by_cases heq : j = i
    · subst heq
      exact absurd ((heldAt_iff hp).mp hheld) hno
    · exact h.clear j (by lia) hheld
  · intro k hk
    cases h.behind k hk with
    | inl hlt => exact .inl (by lia)
    | inr hj =>
      obtain ⟨j, hij, hjk, hheld⟩ := hj
      have hne : j ≠ i := by
        intro heq
        subst heq
        exact hno ((heldAt_iff hp).mp hheld)
      exact .inr ⟨j, by lia, hjk, hheld⟩

/-- A process that has the candidate is the one at which it is given up. -/
theorem Seen.leftAt {i : Nat} {mpid pidchecked : Int} {before : Option Nat} {p : Proc}
    (h : Seen T start i mpid pidchecked before) (hp : T[i]? = some p) (hyes : p.Holds mpid) :
    LeftAt T before mpid i := by
  refine ⟨(heldAt_iff hp).mpr hyes, ?_, fun j hj hheld => h.clear j hj hheld⟩
  intro heq
  cases h.behind i heq with
  | inl hlt => exact absurd hlt (Nat.lt_irrefl i)
  | inr hj =>
    obtain ⟨j, hij, hji, _⟩ := hj
    lia

/-- A collision below the bound: the loop goes on with the next candidate. -/
theorem Seen.collide {i : Nat} {mpid pidchecked : Int} {before : Option Nat} {p : Proc}
    (h : Seen T start i mpid pidchecked before) (hp : T[i]? = some p) (hyes : p.Holds mpid)
    (hlt : mpid + 1 < pidchecked) :
    Seen T start (i + 1) (mpid + 1) (lowered p (mpid + 1) pidchecked) (some i) := by
  obtain ⟨hle, hlt', horigin, hbound⟩ := lowered_spec p hlt
  have htop := h.top
  refine ⟨h.reached.tail (.up (h.leftAt hp hyes) (by lia)), hlt', by lia, ?_, ?_, ?_, ?_⟩
  · cases horigin with
    | inl heq =>
      rw [heq]
      cases h.origin with
      | inl htop => exact .inl htop
      | inr hj =>
        obtain ⟨j, hj, hheld⟩ := hj
        exact .inr ⟨j, by lia, hheld⟩
    | inr hheld => exact .inr ⟨i, Nat.lt_succ_self i, (heldAt_iff hp).mpr hheld⟩
  · intro j v hj hheld
    by_cases heq : j = i
    · subst heq
      exact hbound v ((heldAt_iff hp).mp hheld)
    · cases h.bound j v (by lia) hheld with
      | inl hv => exact .inl (by lia)
      | inr hv => exact .inr (by lia)
  · -- An earlier process with the next candidate would have lowered the bound to it.
    intro j hj hheld
    by_cases heq : j = i
    · rw [heq]
    · cases h.bound j (mpid + 1) (by lia) hheld with
      | inl hv => lia
      | inr hv => lia
  · intro k hk
    cases hk
    exact .inl (Nat.lt_succ_self i)

/-- A collision at the bound: the scan starts again, for the next candidate or for 100. -/
theorem Seen.again {i : Nat} {mpid pidchecked : Int} {before : Option Nat} {p : Proc}
    (h : Seen T start i mpid pidchecked before) (hp : T[i]? = some p) (hyes : p.Holds mpid)
    (hle : pidchecked ≤ mpid + 1) :
    if mpid + 1 < 30000 then Ready T start (mpid + 1) (some i) else Ready T start 100 none := by
  have hbelow := h.below
  have hleft := h.leftAt hp hyes
  split
  · rename_i hlow
    refine ⟨h.reached.tail (.up hleft hlow), hlow, ?_⟩
    intro k hk
    cases hk
    cases h.origin with
    | inl htop => lia
    | inr hj =>
      obtain ⟨j, hj, hheld⟩ := hj
      rw [show pidchecked = mpid + 1 by lia] at hheld
      exact ⟨j, hj, hheld⟩
  · rename_i hhigh
    exact ⟨h.reached.tail (.wrap hleft (by lia)), by decide, nofun⟩

/-- **A scan**: it comes to the end, or it is left for a candidate above the first one, and every candidate
    that was given up is in use. -/
theorem scan_spec {ps : List Proc} {i : Nat} {mpid pidchecked : Int} {before : Option Nat}
    (h : Seen T start i mpid pidchecked before) (hi : i ≤ T.length) (hps : T.drop i = ps) :
    match scan ps mpid pidchecked with
    | .done m b => ∃ before', Seen T start T.length m b before'
    | .retry m b => b ≤ m ∧ mpid < m ∧ m ≤ 30000 ∧ (∀ v, mpid ≤ v → v < m → ∃ j, HeldAt T j v) ∧
      ∃ k, if m < 30000 then Ready T start m (some k) else Ready T start 100 none := by
  induction ps generalizing i mpid pidchecked before with
  | nil =>
    have hlen : T.length ≤ i := List.drop_eq_nil_iff.mp hps
    obtain rfl := Nat.le_antisymm hi hlen
    exact ⟨before, h⟩
  | cons p ps ih =>
    have hp : T[i]? = some p := by
      rw [← List.head?_drop, hps]
      rfl
    have hlt : i < T.length := by
      by_contra hge
      rw [List.drop_eq_nil_iff.mpr (by lia)] at hps
      cases hps
    have hrest : T.drop (i + 1) = ps := by
      rw [← List.tail_drop, hps]
      rfl
    rw [scan]
    by_cases hyes : p.Holds mpid
    · rw [if_pos (show p.p_pid = mpid ∨ p.p_pgrp = mpid from hyes)]
      have hheld : HeldAt T i mpid := (heldAt_iff hp).mpr hyes
      by_cases hle : pidchecked ≤ mpid + 1
      · rw [if_pos hle]
        have htop := h.below
        have htop' := h.top
        refine ⟨hle, by lia, by lia, ?_, i, h.again hp hyes hle⟩
        intro v hv hv'
        obtain rfl : v = mpid := by lia
        exact ⟨i, hheld⟩
      · rw [if_neg hle]
        have hrun := ih (h.collide hp hyes (by lia)) hlt hrest
        split at hrun
        · exact hrun
        · obtain ⟨hb, hm, hm', hall, hready⟩ := hrun
          refine ⟨hb, by lia, hm', ?_, hready⟩
          intro v hv hv'
          by_cases heq : v = mpid
          · subst heq
            exact ⟨i, hheld⟩
          · exact hall v (by lia) hv'
    · rw [if_neg (show ¬ (p.p_pid = mpid ∨ p.p_pgrp = mpid) from hyes)]
      exact ih (h.pass hp hyes) hlt hrest

theorem scan_append (ps qs : List Proc) (mpid pidchecked : Int) :
    scan (ps ++ qs) mpid pidchecked = scanBoth ps qs mpid pidchecked := by
  induction ps generalizing mpid pidchecked with
  | nil => rfl
  | cons p ps ih =>
    rw [List.cons_append, scan]
    unfold scanBoth
    rw [scan]
    split_ifs
    · rfl
    · exact ih _ _
    · exact ih _ _

/-! ## The search -/

/-- The search has come to its end: nothing behind the process where the last candidate was given up, nor
    before it, has this one. -/
theorem Seen.no_next {mpid pidchecked : Int} {before : Option Nat}
    (h : Seen T start T.length mpid pidchecked before) (s : Int × Option Nat) : ¬ Next T (mpid, before) s := by
  have hno : ∀ i, ¬ LeftAt T before mpid i := by
    intro i hleft
    have hlt : i < T.length := by
      obtain ⟨q, hq, _⟩ := hleft.held
      exact (List.getElem?_eq_some_iff.mp hq).1
    exact hleft.other (h.clear i hlt hleft.held)
  intro hnext
  cases hnext with
  | up hleft _ => exact hno _ hleft
  | wrap hleft _ => exact hno _ hleft

end

/-- The first candidate. -/
def Table.start (t : Table) : Int := if 30000 ≤ t.mpid + 1 then 100 else t.mpid + 1

/-- The first candidate is below the bound of the last scan. -/
def Table.Cached (t : Table) : Prop := t.mpid + 1 < 30000 ∧ t.mpid + 1 < t.pidchecked

instance (t : Table) : Decidable t.Cached := inferInstanceAs (Decidable (_ ∧ _))

/-- A search that scans. -/
theorem retry_seen {ps qs : List Proc} {start : Int} {turns : Nat} {mpid pidchecked m b : Int}
    (hready : ∃ before, if mpid < 30000 then Ready (ps ++ qs) start mpid before
      else Ready (ps ++ qs) start 100 none)
    (hscan : mpid < 30000 → pidchecked ≤ mpid) (h : retry ps qs turns mpid pidchecked = some (m, b)) :
    ∃ before, Seen (ps ++ qs) start (ps ++ qs).length m b before := by
  induction turns generalizing mpid pidchecked with
  | zero => cases h
  | succ turns ih =>
    obtain ⟨before, hready⟩ := hready
    -- The candidate of this turn, which has been brought back to 100 at the top.
    obtain ⟨m₀, b₀, hturn, hle, before₀, hready₀⟩ : ∃ m₀ b₀,
        (if 30000 ≤ mpid then ((100 : Int), (0 : Int)) else (mpid, pidchecked)) = (m₀, b₀) ∧ b₀ ≤ m₀ ∧
        ∃ before₀, Ready (ps ++ qs) start m₀ before₀ := by
      by_cases hlow : mpid < 30000
      · rw [if_pos hlow] at hready
        exact ⟨mpid, pidchecked, if_neg (by lia), hscan hlow, before, hready⟩
      · rw [if_neg hlow] at hready
        exact ⟨100, 0, if_pos (by lia), by decide, none, hready⟩
    rw [retry] at h
    simp only [hturn, if_pos hle] at h
    have hspec := scan_spec hready₀.seen (Nat.zero_le _) rfl
    rw [List.drop_zero, scan_append] at hspec
    split at h
    · rename_i m₁ b₁ hrun
      rw [hrun] at hspec
      obtain ⟨hb, _, _, _, k, hnext⟩ := hspec
      refine ih ?_ (fun _ => hb) h
      by_cases hlow : m₁ < 30000
      · rw [if_pos hlow] at hnext
        exact ⟨some k, by rwa [if_pos hlow]⟩
      · rw [if_neg hlow] at hnext
        exact ⟨none, by rwa [if_neg hlow]⟩
    · rename_i m₁ b₁ hrun
      rw [hrun] at hspec
      cases h
      exact hspec

/-! ## It ends -/

theorem heldAt_of_mem {T : List Proc} {v : Int} : (∃ j, HeldAt T j v) ↔ ∃ p ∈ T, p.Holds v := by
  constructor
  · intro h
    obtain ⟨j, p, hp, hv⟩ := h
    exact ⟨p, List.mem_of_getElem? hp, hv⟩
  · intro h
    obtain ⟨p, hp, hv⟩ := h
    obtain ⟨j, hj⟩ := List.mem_iff_getElem?.mp hp
    exact ⟨j, p, hj, hv⟩

/-- A number that is not in use ends the search when it comes there. -/
theorem retry_ends {ps qs : List Proc} {start : Int} {v : Int} (hfree : ∀ p ∈ ps ++ qs, ¬ p.Holds v)
    (hv : v < 30000) (turns : Nat) {mpid pidchecked : Int} {before : Option Nat}
    (hready : Ready (ps ++ qs) start mpid before) (hscan : pidchecked ≤ mpid)
    (hturns : if mpid ≤ v then v - mpid < turns else 100 ≤ v ∧ 30000 - mpid + (v - 100) < turns) :
    ∃ r, retry ps qs turns mpid pidchecked = some r := by
  induction turns generalizing mpid pidchecked before with
  | zero =>
    have hlow := hready.low
    split_ifs at hturns <;> lia
  | succ turns ih =>
    have hlow := hready.low
    have hspec := scan_spec hready.seen (Nat.zero_le _) rfl
    rw [List.drop_zero, scan_append] at hspec
    rw [retry, if_neg (by lia)]
    simp only [if_pos hscan]
    cases hrun : scanBoth ps qs mpid 30000 with
    | done m b => exact ⟨(m, b), rfl⟩
    | retry m b =>
      rw [hrun] at hspec
      obtain ⟨hb, hgt, htop, hall, k, hnext⟩ := hspec
      -- The number itself is never given up.
      have hstop : mpid ≤ v → m ≤ v := by
        intro hle
        by_contra hover
        obtain ⟨p, hp, hheld⟩ := heldAt_of_mem.mp (hall v hle (by lia))
        exact hfree p hp hheld
      dsimp only
      by_cases hm : m < 30000
      · rw [if_pos hm] at hnext
        apply ih hnext hb
        split_ifs at hturns ⊢ <;> lia
      · rw [if_neg hm] at hnext
        have hmpid : ¬ mpid ≤ v := by
          intro hle
          have hle' := hstop hle
          lia
        rw [if_neg hmpid] at hturns
        obtain ⟨hlow100, hturns⟩ := hturns
        -- The next turn starts at 100.
        have hwrap : ∀ n, retry ps qs n m b = retry ps qs n 100 0 := by
          intro n
          cases n with
          | zero => rfl
          | succ n => rw [retry, retry, if_pos (by lia), if_neg (by decide)]
        rw [hwrap]
        apply ih hnext (by decide)
        rw [if_pos hlow100]
        lia

/-! ## The identifier -/

/-- A scan finds a number that is not in use: no candidate's only process is the one where the candidate
    before it was given up. -/
def Told (T : List Proc) (start : Int) : Prop :=
  ∀ v k, Reached T start (v, some k) → HeldAt T k v → ∃ j, j ≠ k ∧ HeldAt T j v

/-- When `newproc` does what it should: the number that the last scan left is still unused, or a scan is
    made and finds one. -/
def Table.Suits (t : Table) : Prop :=
  if t.Cached then t.Unused (t.mpid + 1) else Told t.procs t.start

theorem Table.ready (t : Table) : Ready t.procs t.start t.start none := by
  refine ⟨Relation.ReflTransGen.refl, ?_, nofun⟩
  unfold Table.start
  split_ifs
  · decide
  · lia

theorem Table.ready_turn (t : Table) :
    ∃ before, if t.mpid + 1 < 30000 then Ready t.procs t.start (t.mpid + 1) before
      else Ready t.procs t.start 100 none := by
  have hready := t.ready
  refine ⟨none, ?_⟩
  split_ifs with hlow
  · rwa [show t.start = t.mpid + 1 from if_neg (by lia)] at hready ⊢
  · rwa [show t.start = 100 from if_pos (by lia)] at hready ⊢

theorem retry_cached {t : Table} (h : t.Cached) {turns : Nat} {r : Int × Int}
    (hrun : retry t.allproc t.zombproc turns (t.mpid + 1) t.pidchecked = some r) :
    r = (t.mpid + 1, t.pidchecked) := by
  obtain ⟨hlow, hbelow⟩ := h
  cases turns with
  | zero => cases hrun
  | succ turns =>
    rw [retry, if_neg (by lia)] at hrun
    simp only [if_neg (show ¬ t.pidchecked ≤ t.mpid + 1 by lia)] at hrun
    cases hrun
    rfl

/-- At the end of a scan the candidate is in use just if the search was misled. -/
theorem Seen.unused_iff {T : List Proc} {start m b : Int} {before : Option Nat}
    (h : Seen T start T.length m b before) : (∀ p ∈ T, ¬ p.Holds m) ↔ Told T start := by
  constructor
  · intro hfree v k hreached hheld
    by_contra hall
    have hstuck : ∀ s, ¬ Next T (v, some k) s := by
      have hno : ∀ i, ¬ LeftAt T (some k) v i := by
        intro i hleft
        exact hall ⟨i, fun heq => hleft.other (by rw [heq]), hleft.held⟩
      intro s hs
      cases hs with
      | up hleft _ => exact hno _ hleft
      | wrap hleft _ => exact hno _ hleft
    have heq := reached_end hreached h.reached hstuck h.no_next
    obtain ⟨rfl, _⟩ := Prod.mk.inj heq
    obtain ⟨p, hp, hv⟩ := heldAt_of_mem.mp ⟨k, hheld⟩
    exact hfree p hp hv
  · intro htold p hp hv
    obtain ⟨j, hheld⟩ := heldAt_of_mem.mpr ⟨p, hp, hv⟩
    have hin : ∀ j, HeldAt T j m → j < T.length := by
      intro j hj
      obtain ⟨q, hq, _⟩ := hj
      exact (List.getElem?_eq_some_iff.mp hq).1
    have hbefore := h.clear j (hin j hheld) hheld
    obtain ⟨j', hne, hheld'⟩ := htold m j (hbefore ▸ h.reached) hheld
    have hbefore' := h.clear j' (hin j' hheld') hheld'
    rw [hbefore] at hbefore'
    exact hne (Option.some.inj hbefore').symm

/-- **The identifier that `newproc` gives.** The search ends whenever a number it comes to is unused, and
    what it finds is unused just if the last scan's bound still holds, or the scan is not misled. -/
theorem newproc_exact (t : Table) (parent : Proc) :
    ((∃ v, t.Unused v ∧ v < 30000 ∧ (100 ≤ v ∨ t.mpid + 1 ≤ v)) →
      ∃ turns child t', newproc turns parent t = some (child, t')) ∧
    ∀ turns child t', newproc turns parent t = some (child, t') → (t.Unused child.p_pid ↔ t.Suits) := by
  constructor
  · intro hex
    obtain ⟨v, hfree, hv, hcome⟩ := hex
    suffices hends : ∃ turns r, retry t.allproc t.zombproc turns (t.mpid + 1) t.pidchecked = some r by
      obtain ⟨turns, r, hr⟩ := hends
      exact ⟨turns, _, _, by rw [newproc, hr]; rfl⟩
    by_cases hcached : t.Cached
    · refine ⟨1, (t.mpid + 1, t.pidchecked), ?_⟩
      obtain ⟨hlow, hbelow⟩ := hcached
      rw [retry, if_neg (by lia)]
      simp only [if_neg (show ¬ t.pidchecked ≤ t.mpid + 1 by lia)]
    · have hready := t.ready
      obtain ⟨turns, hturns⟩ : ∃ turns : Nat, if t.start ≤ v then v - t.start < turns
          else 100 ≤ v ∧ 30000 - t.start + (v - 100) < turns := by
        refine ⟨(v - t.start).toNat + (30000 - t.start + (v - 100)).toNat + 1, ?_⟩
        unfold Table.start
        split_ifs <;> lia
      unfold Table.Cached at hcached
      by_cases hlow : t.mpid + 1 < 30000
      · have hstart : t.start = t.mpid + 1 := if_neg (by lia)
        rw [hstart] at hready hturns
        exact ⟨turns, retry_ends hfree hv turns hready (by lia) hturns⟩
      · have hstart : t.start = 100 := if_pos (by lia)
        rw [hstart] at hready hturns
        have hscan : (0 : Int) ≤ 100 := by decide
        obtain ⟨r, hr⟩ := retry_ends hfree hv turns hready hscan hturns
        refine ⟨turns, r, ?_⟩
        rw [← hr]
        cases turns with
        | zero => rfl
        | succ n => rw [retry, retry, if_pos (by lia), if_neg (by decide)]
  · intro turns child t' hrun
    obtain ⟨⟨m, b⟩, hretry, hchild⟩ := Option.map_eq_some_iff.mp hrun
    cases hchild
    dsimp only
    unfold Table.Suits
    by_cases hcached : t.Cached
    · rw [if_pos hcached]
      cases retry_cached hcached hretry
      exact Iff.rfl
    · rw [if_neg hcached]
      unfold Table.Cached at hcached
      obtain ⟨before, hseen⟩ := retry_seen t.ready_turn (by lia) hretry
      exact hseen.unused_iff

instance (t : Table) (v : Int) : Decidable (t.Unused v) := inferInstanceAs (Decidable (∀ p ∈ _, _))

/-- Process 500 in group 501, and 499 the last identifier. -/
def shared : Table := ⟨[⟨500, 501⟩, ⟨1, 0⟩, ⟨0, 0⟩], [], 499, 500⟩

/-- The scan gives up 500 at that process and does not see that it has 501 as well. -/
theorem newproc_shared :
    ¬ ∀ (t : Table) (parent : Proc) (turns : Nat) (child : Proc) (t' : Table),
      newproc turns parent t = some (child, t') → t.Unused child.p_pid := by
  intro hall
  have hunused := hall shared ⟨1, 0⟩ 1 ⟨501, 0⟩ _ rfl
  exact absurd hunused (by decide)

/-! ## Runs -/

/-- What changes the identifiers in use: `newproc`, `exit`, `wait4`, and a new process group, from
    `setpgrp` or a terminal, that is not between the last identifier and the bound. -/
inductive Step : Table → Table → Prop
  | newproc {t t' : Table} {turns : Nat} {parent child : Proc} (hp : parent ∈ t.allproc)
      (h : newproc turns parent t = some (child, t')) : Step t t'
  | exit {t : Table} {p : Proc} {xs ys : List Proc} (h : t.allproc = xs ++ p :: ys) :
      Step t { t with allproc := xs ++ ys, zombproc := p :: t.zombproc }
  | wait4 {t : Table} {p : Proc} {xs ys : List Proc} (h : t.zombproc = xs ++ p :: ys) :
      Step t { t with zombproc := xs ++ ys }
  | setpgrp {t : Table} {p : Proc} {xs ys : List Proc} {g : Int} (h : t.allproc = xs ++ p :: ys)
      (hgap : g ≤ t.mpid ∨ t.pidchecked ≤ g) :
      Step t { t with allproc := xs ++ ⟨p.p_pid, g⟩ :: ys }

/-- No identifier in use is between the last one and the bound. -/
def Table.Clear (t : Table) : Prop :=
  ∀ p ∈ t.procs, ∀ v, p.Holds v → v ≤ t.mpid ∨ t.pidchecked ≤ v

theorem Table.Clear.newproc {t t' : Table} {turns : Nat} {parent child : Proc} (h : t.Clear)
    (hp : parent ∈ t.allproc) (hrun : Fork.newproc turns parent t = some (child, t')) : t'.Clear := by
  obtain ⟨⟨m, b⟩, hretry, hchild⟩ := Option.map_eq_some_iff.mp hrun
  cases hchild
  have hold : ∀ p ∈ t.procs, ∀ v, p.Holds v → v ≤ m ∨ b ≤ v := by
    intro p hmem v hv
    by_cases hcached : t.Cached
    · cases retry_cached hcached hretry
      cases h p hmem v hv with
      | inl hle => exact .inl (by lia)
      | inr hle => exact .inr hle
    · unfold Table.Cached at hcached
      obtain ⟨before, hseen⟩ := retry_seen t.ready_turn (by lia) hretry
      obtain ⟨j, hheld⟩ := heldAt_of_mem.mpr ⟨p, hmem, hv⟩
      have hj : j < (t.allproc ++ t.zombproc).length := by
        obtain ⟨q, hq, _⟩ := hheld
        exact (List.getElem?_eq_some_iff.mp hq).1
      exact hseen.bound j v hj hheld
  intro p hmem v hv
  cases List.mem_cons.mp hmem with
  | inl heq =>
    -- The child has the new identifier and its parent's group.
    subst heq
    cases hv with
    | inl hpid => exact .inl (Int.le_of_eq hpid.symm)
    | inr hpgrp => exact hold parent (List.mem_append_left _ hp) v (.inr hpgrp)
  | inr hmem => exact hold p hmem v hv

theorem Step.clear {t t' : Table} (hstep : Step t t') (h : t.Clear) : t'.Clear := by
  cases hstep with
  | newproc hp hrun => exact h.newproc hp hrun
  | @exit q xs ys hq =>
    intro p hmem
    apply h p
    simp only [Table.procs, hq, List.mem_append, List.mem_cons] at hmem ⊢
    tauto
  | @wait4 q xs ys hq =>
    intro p hmem
    apply h p
    simp only [Table.procs, hq, List.mem_append, List.mem_cons] at hmem ⊢
    tauto
  | @setpgrp q xs ys g hq hgap =>
    intro p hmem v hv
    simp only [Table.procs, List.mem_append, List.mem_cons] at hmem
    have hother : ∀ p', p' = q ∨ p' ∈ xs ∨ p' ∈ ys ∨ p' ∈ t.zombproc → p' ∈ t.procs := by
      intro p' hp'
      simp only [Table.procs, hq, List.mem_append, List.mem_cons]
      tauto
    by_cases hchanged : p = ⟨q.p_pid, g⟩
    · subst hchanged
      cases hv with
      | inl hpid => exact h q (hother q (.inl rfl)) v (.inl hpid)
      | inr hpgrp =>
        have hg : g = v := hpgrp
        exact hg ▸ hgap
    · exact h p (hother p (by tauto)) v hv

theorem clear_of_run {t t' : Table} (hrun : Relation.ReflTransGen Step t t') (h : t.Clear) : t'.Clear := by
  induction hrun with
  | refl => exact h
  | tail _ hstep ih => exact hstep.clear ih

/-- **Over runs**: as long as no process gets a group between the last identifier and the bound, the bound
    can be relied on. -/
theorem suits_of_run {t t' : Table} (hrun : Relation.ReflTransGen Step t t') (h : t.Clear)
    (hcached : t'.Cached) : t'.Suits := by
  have hclear := clear_of_run hrun h
  unfold Table.Suits
  rw [if_pos hcached]
  intro p hmem hheld
  obtain ⟨_, hbelow⟩ := hcached
  cases hclear p hmem _ hheld with
  | inl hle => lia
  | inr hle => lia

end DiscoBSD.Fork
