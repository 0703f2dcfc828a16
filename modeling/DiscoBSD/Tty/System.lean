import DiscoBSD.Lib.Slots
import DiscoBSD.Tty.Calls

/-!
# Clists are queues

Any number of clists on one free list. **Every block is on the free list or in one clist**, so a call on one
clist cannot touch another, and what a clist holds is a queue of bytes with two ends. `contents` reads it the
way a driver does: from the first character with `nextc`.

A turn of `catq` gives the free list the blocks that the other clist then needs, so it never loses a byte. On a
clist that is not empty and itself `catq` does not return: it queues what it takes for ever.
-/

set_option autoImplicit false

namespace DiscoBSD.Tty

open DiscoBSD.Lib
open Function (update)

/-- `n` blocks from `ccp` on. -/
def pool (ccp n : ℕ) : List ℕ := (List.range n).map fun k => ccp + cblock * k

/-- The first block of the array at `cfree`, which `cinit` rounds up. -/
def firstBlock (cfree : ℕ) : ℕ := blockOf (cfree + (cblock - 1))

/-- The blocks of an array of `nclist` up to the address of its last one. -/
def nblocks (cfree nclist : ℕ) : ℕ := if offset cfree = 0 then nclist else nclist - 1

/-- The clists when nothing is queued. -/
def World.init (cfree nclist : ℕ) : World :=
  ⟨Mem.cinit (firstBlock cfree) (nblocks cfree nclist) ⟨fun _ => 0, fun _ => 0, 0, 0, false⟩, fun _ => .empty⟩

/-- The addresses that `nextc` gives, `n` of them from `cp` on. -/
def Mem.walk (σ : Mem) (p : Clist) : ℕ → ℕ → List ℕ
  | 0, _ => []
  | n + 1, cp => cp :: σ.walk p n (σ.nextc p cp)

/-- The characters of a clist, as `nextc` enumerates them. -/
def World.contents (w : World) (i : ℕ) : List UInt8 :=
  (w.mem.walk (w.q i) (w.q i).c_cc.toNat (w.q i).c_cf).map w.mem.byte

/-- How many characters still go into a clist. -/
def World.space (w : World) (i : ℕ) : ℤ := room (w.q i) + w.mem.cfreecount

/-- The free list is `fs`, clist `i` has the blocks `bs i` and the characters `cs i`, and that is all there is. -/
structure Inv (nq : ℕ) (all : List ℕ) (w : World) (fs : List ℕ) (bs : ℕ → List ℕ) (cs : ℕ → List UInt8) : Prop where
  free : Free w.mem.c_next w.mem.cfreelist fs
  count : w.mem.cfreecount = cbsize * fs.length
  holds : ∀ i, Holds w.mem (w.q i) (bs i) (cs i)
  perm : (fs ++ (List.range nq).flatMap bs).Perm all
  outside : ∀ i, nq ≤ i → bs i = []

/-- What a call says and does on queues of bytes. `space` is how much still goes into each; only a call that
    queues more than that falls short of it. -/
def Deque (space : ℕ → ℤ) (cs : ℕ → List UInt8) (call : Call) (a : Answer) (cs' : ℕ → List UInt8) : Prop :=
  match call with
  | .putc i c =>
    (a = .int 0 ∧ cs' = update cs i (cs i ++ [UInt8.ofNat c])) ∨ (a = .int (-1) ∧ space i = 0 ∧ cs' = cs)
  | .unputc i =>
    a = .int (((cs i).getLast?.map fun c => (c.toNat : ℤ)).getD (-1)) ∧ cs' = update cs i (cs i).dropLast
  | .getc i =>
    a = .int (((cs i).head?.map fun c => (c.toNat : ℤ)).getD (-1)) ∧ cs' = update cs i (cs i).tail
  | .bToQ i cp =>
    ∃ taken left, cp = taken ++ left ∧ a = .int left.length ∧ cs' = update cs i (cs i ++ taken) ∧
      (left ≠ [] → taken.length = space i)
  | .qToB i cc => a = .bytes ((cs i).take cc.toNat) ∧ cs' = update cs i ((cs i).drop cc.toNat)
  | .ndqb i flag =>
    ∃ n : ℕ, a = .int n ∧ n ≤ (cs i).length ∧ (flag ≠ 0 → ∀ c ∈ (cs i).take n, c.toNat &&& flag = 0) ∧
      (n = 0 → cs i = [] ∨ flag ≠ 0 ∧ ∃ c, (cs i).head? = some c ∧ c.toNat &&& flag ≠ 0) ∧ cs' = cs
  | .ndflush i cc => a = .void ∧ cs' = update cs i ((cs i).drop cc.toNat)
  | .nextc _ _ => (∃ p, a = .ptr p) ∧ cs' = cs
  | .catq i j => a = .void ∧ cs' = update (update cs j (cs j ++ cs i)) i []

/-- A run of calls on `nq` clists, and their answers. -/
inductive Run (nq : ℕ) (w₀ : World) : List (Call × Answer) → World → Prop
  | init : Run nq w₀ [] w₀
  | step {es : List (Call × Answer)} {w w' : World} {c : Call} {a : Answer} :
      Run nq w₀ es w → (∀ i ∈ c.on, i < nq) → w.step c = some (a, w') → Run nq w₀ (es ++ [(c, a)]) w'

/-- The same calls and answers, of queues. -/
inductive Deques : List (Call × Answer) → (ℕ → List UInt8) → Prop
  | init : Deques [] fun _ => []
  | step {es : List (Call × Answer)} {cs cs' : ℕ → List UInt8} {c : Call} {a : Answer} (space : ℕ → ℤ) :
      Deques es cs → Deque space cs c a cs' → Deques (es ++ [(c, a)]) cs'

section

variable {nq i j : ℕ} {all fs : List ℕ} {w w' : World} {bs : ℕ → List ℕ} {cs : ℕ → List UInt8}

/-! ## One clist among others -/

/-- A clist with none of the blocks that moved is as it was. -/
theorem Holds.frame {σ σ' : Mem} {q : Clist} {bs fs₁ bs₁ fs₂ bs₂ : List ℕ} {cs : List UInt8} (h : Holds σ q bs cs)
    (hm : Moved σ fs₁ bs₁ σ' fs₂ bs₂) (hn : bs.Nodup) (ha : ∀ b ∈ bs, offset b = 0)
    (hdisj : ∀ b ∈ bs, b ∉ fs₁ ++ bs₁) : Holds σ' q bs cs := by
  cases bs with
  | nil => exact h
  | cons b bs =>
    obtain ⟨hch, hcs, hcc⟩ := h
    refine ⟨hch.congr hn fun x hx _ => hm.next x (hdisj x hx), ?_, hcc⟩
    rw [hcs]
    refine List.map_congr_left fun a hac => (hm.byte a ?_).symm
    obtain ⟨x, hx, hlo, hhi⟩ := hch.mem_cells hac
    rw [blockOf_of (ha x hx) (by omega) hhi]
    exact hdisj x hx

theorem Inv.queue (h : Inv nq all w fs bs cs) (hall : all.Nodup) (ha : ∀ b ∈ all, offset b = 0 ∧ 0 < b)
    (hi : i < nq) : Queue w.mem (w.q i) fs (bs i) (cs i) := by
  have hmem := List.mem_range.mpr hi
  have hperm := ((flatMap_split bs List.nodup_range hmem).append_left fs).symm.trans h.perm
  rw [← List.append_assoc] at hperm
  have hn := hperm.nodup_iff.mpr hall
  refine ⟨h.free, h.count, h.holds i, (List.nodup_append.mp hn).1, fun b hb => ha b (hperm.mem_iff.mp ?_)⟩
  exact List.mem_append_left _ hb

/-- A call on one clist leaves the others. -/
theorem Inv.became (h : Inv nq all w fs bs cs) (hall : all.Nodup) (ha : ∀ b ∈ all, offset b = 0 ∧ 0 < b)
    (hi : i < nq) {σ' : Mem} {q' : Clist} {cs' : List UInt8} (hb : Became w.mem fs (bs i) σ' q' cs') :
    ∃ fs' bs', Inv nq all (w.setq i (σ', q')) fs' bs' (update cs i cs') := by
  obtain ⟨fs', bs', hq, hm⟩ := hb
  have hmem := List.mem_range.mpr hi
  have hsplit := ((flatMap_split bs List.nodup_range hmem).append_left fs).symm.trans h.perm
  rw [← List.append_assoc] at hsplit
  have hn := hsplit.nodup_iff.mpr hall
  obtain ⟨-, hrest, hdisj⟩ := List.nodup_append.mp hn
  refine ⟨fs', update bs i bs', hq.free, hq.count, fun j => ?_, ?_, fun j hj => ?_⟩
  · by_cases hji : j = i
    · subst hji
      simp only [World.setq, Function.update_self]
      exact hq.holds
    · simp only [World.setq, Function.update_of_ne hji]
      by_cases hj : j < nq
      · have hin : ∀ b ∈ bs j, b ∈ ((List.range nq).erase i).flatMap bs := fun b hb =>
          List.mem_flatMap.mpr ⟨j, (List.mem_erase_of_ne hji).mpr (List.mem_range.mpr hj), hb⟩
        refine (h.holds j).frame hm ?_ (fun b hb => ?_) fun b hb hb' => ?_
        · exact (List.nodup_append.mp (h.queue hall ha hj).nodup).2.1
        · exact (ha b (hsplit.mem_iff.mp (List.mem_append_right _ (hin b hb)))).1
        · exact hdisj b hb' b (hin b hb) rfl
      · have hnil := h.outside j (Nat.le_of_not_lt hj)
        have hh := h.holds j
        rw [hnil] at hh ⊢
        exact hh
  · refine ((flatMap_update bs bs' List.nodup_range hmem).append_left fs').trans ?_
    rw [← List.append_assoc]
    exact (hm.perm.append_right _).trans hsplit
  · rw [Function.update_of_ne (by omega)]
    exact h.outside j hj

/-! ## contents -/

theorem walk_cells {σ : Mem} {q : Clist} (l : List ℕ) : ∀ a, l.headD 0 = a ∨ l = [] →
    (∀ k < l.length, σ.nextc q (l.getD k 0) = l.getD (k + 1) 0) → σ.walk q l.length a = l := by
  induction l with
  | nil => exact fun _ _ _ => rfl
  | cons x l ih =>
    intro a ha hnext
    obtain rfl : x = a := ha.resolve_right (List.cons_ne_nil x l)
    have hfirst := hnext 0 (Nat.succ_pos _)
    rw [List.getD_cons_zero, List.getD_cons_succ] at hfirst
    rw [List.length_cons, Mem.walk, hfirst, ih]
    · cases l with
      | nil => exact .inr rfl
      | cons y l => exact .inl rfl
    · intro k hk
      have := hnext (k + 1) (Nat.succ_lt_succ hk)
      rwa [List.getD_cons_succ, List.getD_cons_succ] at this

/-- The characters of a clist are what `nextc` enumerates, and it ends behind the last. -/
theorem Inv.walk (h : Inv nq all w fs bs cs) (hall : all.Nodup) (ha : ∀ b ∈ all, offset b = 0 ∧ 0 < b) (i : ℕ) :
    w.contents i = cs i ∧
      (∀ a, (w.mem.walk (w.q i) (w.q i).c_cc.toNat (w.q i).c_cf).getLast? = some a → w.mem.nextc (w.q i) a = 0) := by
  by_cases hi : i < nq
  · have hq := h.queue hall ha hi
    cases hbs : bs i with
    | nil =>
      rw [hbs] at hq
      obtain ⟨hempty, hnil⟩ := hq.holds
      simp only [World.contents, hempty, hnil]
      exact ⟨rfl, nofun⟩
    | cons b bs' =>
      rw [hbs] at hq
      obtain ⟨-, hnd, -⟩ := List.nodup_append.mp hq.nodup
      have hcc := hq.c_cc
      have hpos := hq.c_cc_pos
      have hnext := nextc_cells (σ := w.mem) (q := w.q i) (by omega) _ hq.chained hnd
        (fun x hx => (hq.aligned x (List.mem_append_right fs hx)).1) rfl
      have hwalk := walk_cells _ _ (.inl hq.chained.head) hnext
      have hlen : (w.q i).c_cc.toNat = (cells linkSize cblock (w.q i).c_cl (w.q i).c_cf b bs').length := by
        rw [hq.length, hcc]
        rfl
      rw [World.contents, hlen, hwalk]
      refine ⟨hq.cells.symm, fun a hlast => ?_⟩
      rw [List.getLast?_eq_getElem?] at hlast
      have hk : (cells linkSize cblock (w.q i).c_cl (w.q i).c_cf b bs').length - 1 <
          (cells linkSize cblock (w.q i).c_cl (w.q i).c_cf b bs').length := by
        have := hq.chained.length_pos
        omega
      have hend := hnext _ hk
      rw [List.getD_eq_getElem?_getD, hlast, Option.getD_some, List.getD_eq_getElem?_getD,
        List.getElem?_eq_none (by omega), Option.getD_none] at hend
      exact hend
  · have hh := h.holds i
    rw [h.outside i (Nat.le_of_not_lt hi)] at hh
    obtain ⟨hempty, hnil⟩ := hh
    simp only [World.contents, hempty, hnil]
    exact ⟨rfl, nofun⟩

/-! ## catq -/

/-- What `q_to_b` takes for `catq` fits into the blocks it leaves free. -/
theorem Queue.frees {σ σ' : Mem} {q q' : Clist} {fs bs fs' bs' : List ℕ} {cs : List UInt8} (h : Queue σ q fs bs cs)
    (h' : Queue σ' q' fs' bs' (cs.drop (cbsize * 4))) (hm : Moved σ fs bs σ' fs' bs')
    (hcl : cs.drop (cbsize * 4) ≠ [] → q'.c_cl = q.c_cl) :
    (cs.take (cbsize * 4)).length ≤ cbsize * fs'.length := by
  have hlen := hm.perm.length_eq
  rw [List.length_append, List.length_append] at hlen
  have hcb : cbsize = 28 := rfl
  rw [List.length_take]
  cases bs with
  | nil =>
    rw [h.holds.2]
    exact Nat.le_trans (Nat.min_le_right _ _) (Nat.zero_le _)
  | cons b bs =>
    obtain ⟨hcap, hlead, -⟩ := h.capacity
    cases bs' with
    | nil =>
      simp only [List.length_nil, List.length_cons, hcb] at hlen hcap ⊢
      omega
    | cons b' bs' =>
      obtain ⟨hcap', hlead', -⟩ := h'.capacity
      have hne : cs.drop (cbsize * 4) ≠ [] := fun hnil => by
        have := h'.nil_iff.mpr hnil
        cases this
      have hroom : room q' = room q := by rw [room, room, hcl hne]
      have hmore := List.length_pos_iff.mpr hne
      rw [List.length_drop] at hmore
      rw [hroom, List.length_drop] at hcap'
      simp only [List.length_cons, hcb] at hlen hcap hcap' hlead' hmore ⊢
      omega

/-- A turn of `catq`: what `q_to_b` takes from the one clist `b_to_q` queues in the other, all of it. -/
theorem catq_turn (h : Inv nq all w fs bs cs) (hall : all.Nodup) (ha : ∀ b ∈ all, offset b = 0 ∧ 0 < b)
    (hi : i < nq) (hj : j < nq) (hne : cs i ≠ []) :
    ∃ w' fs' bs' cs₁, (∀ turns, w.catqLoop i j (turns + 1) = w'.catqLoop i j turns) ∧
      cs₁ = update cs i ((cs i).drop (cbsize * 4)) ∧
      Inv nq all w' fs' bs' (update cs₁ j (cs₁ j ++ (cs i).take (cbsize * 4))) := by
  have hq := h.queue hall ha hi
  have hcc := hq.c_cc
  have hpos := List.length_pos_iff.mpr hne
  obtain ⟨σ₁, q₁, htob, ⟨fs₁, bs₁, hq₁, hm₁⟩, hcl⟩ := qToB_spec hq (cbsize * 4 : ℕ)
  rw [Int.toNat_natCast] at htob hq₁ hcl
  obtain ⟨fs₂, bs₂, hinv₁⟩ := h.became hall ha hi ⟨fs₁, bs₁, hq₁, hm₁⟩
  have hroom := hq.frees hq₁ hm₁ hcl
  have hfree : fs₂.length = fs₁.length := by
    have hc₁ := hq₁.count
    have hc₂ := hinv₁.count
    simp only [World.setq, cbsize] at hc₁ hc₂
    omega
  -- The free blocks are enough for the second half.
  obtain ⟨taken, left, σ₂, q₂, hsplit, hfromb, hbecame, hleft⟩ :=
    bToQ_spec (hinv₁.queue hall ha hj) ((cs i).take (cbsize * 4))
  have hdone : left = [] := by
    by_contra hnil
    have htaken := hleft hnil
    have hlpos := List.length_pos_iff.mpr hnil
    have hsum := congrArg List.length hsplit
    rw [List.length_append] at hsum
    rw [hfree] at htaken
    omega
  subst hdone
  rw [List.append_nil] at hsplit
  rw [← hsplit] at hbecame
  obtain ⟨fs₃, bs₃, hinv₂⟩ := hinv₁.became hall ha hj hbecame
  refine ⟨_, fs₃, bs₃, _, fun turns => ?_, rfl, hinv₂⟩
  have htob' : w.mem.qToB (w.q i) (cbsize * 4 : ℤ) = some ((cs i).take (cbsize * 4), σ₁, q₁) := htob
  rw [World.catqLoop, if_neg (by rw [hcc]; omega)]
  simp only [htob', hfromb]

theorem catqLoop_done (h : Inv nq all w fs bs cs) (hnil : cs i = []) (hi : i < nq) (hall : all.Nodup)
    (ha : ∀ b ∈ all, offset b = 0 ∧ 0 < b) (turns : ℕ) : w.catqLoop i j turns = some w := by
  have hcc := (h.queue hall ha hi).c_cc
  rw [hnil] at hcc
  unfold World.catqLoop
  rw [if_pos (by rw [hcc]; exact le_rfl)]

/-- `catq` to another clist takes everything over, in turns. -/
theorem catqLoop_spec (hall : all.Nodup) (ha : ∀ b ∈ all, offset b = 0 ∧ 0 < b) (hi : i < nq) (hj : j < nq)
    (hij : i ≠ j) (turns : ℕ) : ∀ {w : World} {fs : List ℕ} {bs : ℕ → List ℕ} {cs : ℕ → List UInt8},
    Inv nq all w fs bs cs → (cs i).length ≤ turns → ∃ w' fs' bs', w.catqLoop i j turns = some w' ∧
      Inv nq all w' fs' bs' (update (update cs j (cs j ++ cs i)) i []) := by
  have hdone : ∀ {cs : ℕ → List UInt8}, cs i = [] → update (update cs j (cs j ++ cs i)) i [] = cs := by
    intro cs hnil
    rw [hnil, List.append_nil, Function.update_eq_self, ← hnil, Function.update_eq_self]
  induction turns with
  | zero =>
    intro w fs bs cs h hlen
    have hnil : cs i = [] := List.length_eq_zero_iff.mp (Nat.le_zero.mp hlen)
    exact ⟨w, fs, bs, catqLoop_done h hnil hi hall ha 0, (hdone hnil).symm ▸ h⟩
  | succ turns ih =>
    intro w fs bs cs h hlen
    by_cases hnil : cs i = []
    · exact ⟨w, fs, bs, catqLoop_done h hnil hi hall ha _, (hdone hnil).symm ▸ h⟩
    · have hpos := List.length_pos_iff.mpr hnil
      obtain ⟨w₁, fs₁, bs₁, cs₁, hturn, rfl, hinv₁⟩ := catq_turn h hall ha hi hj hnil
      obtain ⟨w', fs', bs', hloop, hinv⟩ := ih hinv₁ (by
        rw [Function.update_of_ne hij, Function.update_self, List.length_drop]
        unfold cbsize
        omega)
      refine ⟨w', fs', bs', (hturn turns).trans hloop, ?_⟩
      rw [Function.update_self, Function.update_of_ne hij, Function.update_self, Function.update_idem,
        Function.update_of_ne hij.symm, List.append_assoc, List.take_append_drop, Function.update_comm hij,
        Function.update_idem] at hinv
      exact hinv

/-- `catq` of a clist to itself goes round. -/
theorem catqLoop_self (hall : all.Nodup) (ha : ∀ b ∈ all, offset b = 0 ∧ 0 < b) (hi : i < nq) (turns : ℕ) :
    ∀ {w : World} {fs : List ℕ} {bs : ℕ → List ℕ} {cs : ℕ → List UInt8}, Inv nq all w fs bs cs → cs i ≠ [] →
      w.catqLoop i i turns = none := by
  induction turns with
  | zero =>
    intro w fs bs cs h hne
    have hpos := List.length_pos_iff.mpr hne
    rw [World.catqLoop, if_neg (by rw [(h.queue hall ha hi).c_cc]; omega)]
  | succ turns ih =>
    intro w fs bs cs h hne
    obtain ⟨w₁, fs₁, bs₁, cs₁, hturn, rfl, hinv₁⟩ := catq_turn h hall ha hi hi hne
    rw [hturn]
    refine ih hinv₁ ?_
    rw [Function.update_self, Function.update_self]
    refine List.ne_nil_of_length_pos ?_
    have hpos := List.length_pos_iff.mpr hne
    rw [List.length_append, List.length_drop, List.length_take]
    unfold cbsize
    omega

theorem catq_spec (h : Inv nq all w fs bs cs) (hall : all.Nodup) (ha : ∀ b ∈ all, offset b = 0 ∧ 0 < b)
    (hi : i < nq) (hj : j < nq) (hself : i = j → cs i = []) : ∃ w' fs' bs', w.catq i j = some w' ∧
      Inv nq all w' fs' bs' (update (update cs j (cs j ++ cs i)) i []) := by
  have hqj := h.queue hall ha hj
  unfold World.catq
  by_cases hnil : cs j = []
  · have hzero : (w.q j).c_cc = 0 := by
      rw [hqj.c_cc, hnil]
      rfl
    rw [hnil] at hqj
    obtain ⟨hbs, -⟩ := hqj.emptied
    rw [if_pos hzero]
    refine ⟨_, fs, update (update bs j (bs i)) i [], rfl, h.free, h.count, fun k => ?_, ?_, fun k hk => ?_⟩
    · by_cases hki : k = i
      · subst hki
        simp only [Function.update_self]
        exact ⟨rfl, rfl⟩
      · simp only [Function.update_of_ne hki]
        by_cases hkj : k = j
        · subst hkj
          simp only [Function.update_self, hnil, List.nil_append]
          exact h.holds i
        · simp only [Function.update_of_ne hkj]
          exact h.holds k
    · refine List.Perm.trans (List.Perm.append_left fs ?_) h.perm
      have hmi := List.mem_range.mpr hi
      refine (flatMap_update _ _ List.nodup_range hmi).trans ?_
      refine List.Perm.trans ?_ (flatMap_split bs List.nodup_range hmi).symm
      rw [List.nil_append]
      by_cases hij : j = i
      · subst hij
        rw [hbs, Function.update_eq_self_iff.mpr hbs.symm, List.nil_append]
      · have hmj : j ∈ (List.range nq).erase i := (List.mem_erase_of_ne hij).mpr (List.mem_range.mpr hj)
        have hnd := (List.nodup_range (n := nq)).erase i
        refine (flatMap_update _ _ hnd hmj).trans (List.Perm.append_left _ ?_)
        have hs := flatMap_split bs hnd hmj
        rw [hbs, List.nil_append] at hs
        exact hs.symm
    · rw [Function.update_of_ne (by omega), Function.update_of_ne (by omega)]
      exact h.outside k hk
  · have hsome : (w.q j).c_cc ≠ 0 := by
      have := List.length_pos_iff.mpr hnil
      rw [hqj.c_cc]
      omega
    have hij : i ≠ j := by
      rintro rfl
      exact hnil (hself rfl)
    rw [if_neg hsome]
    refine catqLoop_spec hall ha hi hj hij _ h ?_
    rw [(h.queue hall ha hi).c_cc]
    exact le_rfl

/-! ## Calls and runs -/

/-- How much still goes into a clist is known from the free list. -/
theorem Inv.space (h : Inv nq all w fs bs cs) (i : ℕ) : w.space i = (room (w.q i) + cbsize * fs.length : ℕ) := by
  rw [World.space, h.count, Nat.cast_add, Nat.cast_mul]

/-- One call. It returns, unless it is `catq` of a clist that is not empty to itself. -/
theorem Inv.step (h : Inv nq all w fs bs cs) (hall : all.Nodup) (ha : ∀ b ∈ all, offset b = 0 ∧ 0 < b) {c : Call}
    (hc : ∀ i ∈ c.on, i < nq) :
    (∃ i, c = .catq i i ∧ cs i ≠ [] ∧ w.step c = none) ∨
      ∃ a w' fs' bs' cs', w.step c = some (a, w') ∧ Inv nq all w' fs' bs' cs' ∧ Deque w.space cs c a cs' := by
  have hone : ∀ i, c.on = [i] → i < nq := fun i hi => hc i (hi ▸ List.mem_singleton_self i)
  cases c with
  | putc i c =>
    have hi := hone i rfl
    rcases putc_spec (h.queue hall ha hi) c with ⟨hr, hb⟩ | ⟨hr, hfs, hroom, hb⟩
    · obtain ⟨fs', bs', hinv⟩ := h.became hall ha hi hb
      exact .inr ⟨_, _, fs', bs', _, rfl, hinv, .inl ⟨congrArg Answer.int hr, rfl⟩⟩
    · obtain ⟨fs', bs', hinv⟩ := h.became hall ha hi hb
      rw [Function.update_eq_self] at hinv
      refine .inr ⟨_, _, fs', bs', cs, rfl, hinv, .inr ⟨congrArg Answer.int hr, ?_, rfl⟩⟩
      rw [h.space, hfs, hroom]
      rfl
  | unputc i =>
    have hi := hone i rfl
    obtain ⟨r, σ', q', hcall, hr, hb⟩ := unputc_spec (h.queue hall ha hi)
    obtain ⟨fs', bs', hinv⟩ := h.became hall ha hi hb
    refine .inr ⟨_, _, fs', bs', _, ?_, hinv, congrArg Answer.int hr, rfl⟩
    rw [World.step, hcall, Option.map_some]
  | getc i =>
    have hi := hone i rfl
    obtain ⟨hr, hb⟩ := getc_spec (h.queue hall ha hi)
    obtain ⟨fs', bs', hinv⟩ := h.became hall ha hi hb
    exact .inr ⟨_, _, fs', bs', _, rfl, hinv, congrArg Answer.int hr, rfl⟩
  | bToQ i cp =>
    have hi := hone i rfl
    obtain ⟨taken, left, σ', q', hsplit, hcall, hb, hleft⟩ := bToQ_spec (h.queue hall ha hi) cp
    obtain ⟨fs', bs', hinv⟩ := h.became hall ha hi hb
    refine .inr ⟨.int left.length, _, fs', bs', _, ?_, hinv, taken, left, hsplit, rfl, rfl, fun hne => ?_⟩
    · rw [World.step, hcall, Option.map_some]
    · rw [h.space, hleft hne]
  | qToB i cc =>
    have hi := hone i rfl
    obtain ⟨σ', q', hcall, hb, -⟩ := qToB_spec (h.queue hall ha hi) cc
    obtain ⟨fs', bs', hinv⟩ := h.became hall ha hi hb
    refine .inr ⟨_, _, fs', bs', _, ?_, hinv, rfl, rfl⟩
    rw [World.step, hcall, Option.map_some]
  | ndqb i flag =>
    obtain ⟨n, hr, hn, hload, hflag, hstop⟩ := ndqb_spec (h.queue hall ha (hone i rfl)) flag
    refine .inr ⟨.int n, w, fs, bs, cs, by rw [World.step, hr], h, n, rfl, hn, hflag, fun hzero => ?_, rfl⟩
    subst hzero
    rcases hstop with hlen | hoff | ⟨hne, c, hc, hcf⟩
    · exact .inl (List.length_eq_zero_iff.mp hlen.symm)
    · -- The first character is not at the start of a block.
      left
      by_contra hne
      have hq := h.queue hall ha (hone i rfl)
      cases hbs : bs i with
      | nil =>
        rw [hbs] at hq
        exact hne hq.holds.2
      | cons b bs' =>
        rw [hbs] at hq
        obtain ⟨hlo, hhi⟩ := hq.chained.first
        have hlink : linkSize = 4 := rfl
        rw [Nat.add_zero, offset_of hq.block.1 (by omega) hhi] at hoff
        omega
    · exact .inr ⟨hne, c, List.head?_eq_getElem? ▸ hc, hcf⟩
  | ndflush i cc =>
    have hi := hone i rfl
    obtain ⟨σ', q', hcall, hb⟩ := ndflush_spec (h.queue hall ha hi) cc
    obtain ⟨fs', bs', hinv⟩ := h.became hall ha hi hb
    refine .inr ⟨_, _, fs', bs', _, ?_, hinv, rfl, rfl⟩
    rw [World.step, hcall, Option.map_some]
  | nextc i cp => exact .inr ⟨_, w, fs, bs, cs, rfl, h, ⟨_, rfl⟩, rfl⟩
  | catq i j =>
    have hi := hc i (List.mem_cons_self ..)
    have hj := hc j (List.mem_cons_of_mem i (List.mem_singleton_self j))
    by_cases hself : i = j ∧ cs i ≠ []
    · obtain ⟨rfl, hne⟩ := hself
      refine .inl ⟨i, rfl, hne, ?_⟩
      have hpos := List.length_pos_iff.mpr hne
      have hcc : (w.q i).c_cc ≠ 0 := by
        rw [(h.queue hall ha hi).c_cc]
        omega
      rw [World.step, World.catq, if_neg hcc, catqLoop_self hall ha hi _ h hne, Option.map_none]
    · obtain ⟨w', fs', bs', hcall, hinv⟩ := catq_spec h hall ha hi hj fun hij => by
        by_contra hne
        exact hself ⟨hij, hne⟩
      refine .inr ⟨.void, w', fs', bs', _, ?_, hinv, rfl, rfl⟩
      rw [World.step, hcall, Option.map_some]

/-! ## The start -/

theorem pool_succ (ccp n : ℕ) : pool ccp (n + 1) = ccp :: pool (ccp + cblock) n := by
  unfold pool
  rw [List.range_succ_eq_map, List.map_cons, List.map_map, Nat.mul_zero, Nat.add_zero]
  refine congrArg _ (List.map_congr_left fun k _ => ?_)
  simp only [Function.comp_apply, Nat.mul_succ]
  omega

theorem pool_nodup (ccp n : ℕ) : (pool ccp n).Nodup := by
  refine List.nodup_range.map fun a b h => ?_
  simp only [cblock] at h
  omega

/-- `cinit` puts every block on the free list. -/
theorem cinit_free (n : ℕ) : ∀ {ccp : ℕ} {σ : Mem} {fs : List ℕ}, Free σ.c_next σ.cfreelist fs →
    σ.cfreecount = cbsize * fs.length → (∀ b ∈ fs, b < ccp) →
      Free (Mem.cinit ccp n σ).c_next (Mem.cinit ccp n σ).cfreelist ((pool ccp n).reverse ++ fs) ∧
        (Mem.cinit ccp n σ).cfreecount = cbsize * ((pool ccp n).reverse ++ fs).length := by
  induction n with
  | zero => exact fun hf hc _ => ⟨hf, hc⟩
  | succ n ih =>
    intro ccp σ fs hf hc hlt
    rw [pool_succ, List.reverse_cons, List.append_assoc, List.singleton_append]
    refine ih (σ := σ.push ccp) (hf.push fun hm => absurd (hlt ccp hm) (Nat.lt_irrefl _)) ?_ fun b hb => ?_
    · show σ.cfreecount + cbsize = cbsize * ((ccp :: fs).length : ℕ)
      rw [hc, List.length_cons]
      unfold cbsize
      omega
    · have hblk : 0 < cblock := by decide
      rcases List.mem_cons.mp hb with rfl | hb
      · omega
      · have := hlt b hb
        omega

theorem inv_init (nq cfree nclist : ℕ) :
    Inv nq (pool (firstBlock cfree) (nblocks cfree nclist)) (World.init cfree nclist)
      (pool (firstBlock cfree) (nblocks cfree nclist)).reverse (fun _ => []) fun _ => [] := by
  obtain ⟨hfree, hcount⟩ := @cinit_free (nblocks cfree nclist) (firstBlock cfree)
    ⟨fun _ => 0, fun _ => 0, 0, 0, false⟩ [] rfl rfl nofun
  rw [List.append_nil] at hfree hcount
  refine ⟨hfree, hcount, fun _ => ⟨rfl, rfl⟩, ?_, fun _ _ => rfl⟩
  have hnil : (List.range nq).flatMap (fun _ => ([] : List ℕ)) = [] := by simp
  rw [hnil, List.append_nil]
  exact List.reverse_perm _

theorem pool_aligned {cfree : ℕ} (hpos : 0 < cfree) (n : ℕ) :
    ∀ b ∈ pool (firstBlock cfree) n, offset b = 0 ∧ 0 < b := by
  intro b hb
  obtain ⟨k, -, rfl⟩ := List.mem_map.mp hb
  unfold firstBlock offset blockOf cblock
  omega

/-- A run keeps the blocks in order, and is one of queues. -/
theorem Run.inv {cfree nclist : ℕ} (hpos : 0 < cfree) {es : List (Call × Answer)}
    (h : Run nq (World.init cfree nclist) es w) :
    ∃ fs bs cs, Inv nq (pool (firstBlock cfree) (nblocks cfree nclist)) w fs bs cs ∧ Deques es cs := by
  induction h with
  | init => exact ⟨_, _, _, inv_init nq cfree nclist, .init⟩
  | @step es w w' c a _ hc hstep ih =>
    obtain ⟨fs, bs, cs, hinv, hd⟩ := ih
    rcases hinv.step (pool_nodup ..) (pool_aligned hpos _) hc with ⟨i, rfl, -, hnone⟩ |
      ⟨a', w'', fs', bs', cs', hsome, hinv', hdeque⟩
    · rw [hnone] at hstep
      cases hstep
    · rw [hsome] at hstep
      obtain ⟨rfl, rfl⟩ := Prod.mk.inj (Option.some.inj hstep)
      exact ⟨fs', bs', cs', hinv', .step w.space hd hdeque⟩

end

/-- **Clists are queues of bytes.** After every run of calls on any number of clists the bytes that `nextc`
    enumerates are those of queues that got the same calls and gave the same answers, and it ends behind the
    last; `c_cc` counts them. Every block is on the free list or in one clist, and the free characters are those
    of the free blocks. The next call returns too, and does what it does to a queue, unless it is `catq` of a
    clist that is not empty to itself, which does not return. -/
theorem clists_are_queues {nq cfree nclist : ℕ} (hpos : 0 < cfree) {es : List (Call × Answer)} {w : World}
    (h : Run nq (World.init cfree nclist) es w) :
    Deques es w.contents ∧
    (∀ i, (w.q i).c_cc = (w.contents i).length ∧
      ∀ a, (w.mem.walk (w.q i) (w.q i).c_cc.toNat (w.q i).c_cf).getLast? = some a → w.mem.nextc (w.q i) a = 0) ∧
    (∃ fs bs, Inv nq (pool (firstBlock cfree) (nblocks cfree nclist)) w fs bs w.contents) ∧
    ∀ c : Call, (∀ i ∈ c.on, i < nq) →
      (∃ i, c = .catq i i ∧ w.contents i ≠ [] ∧ w.step c = none) ∨
        ∃ a w', w.step c = some (a, w') ∧ Deque w.space w.contents c a w'.contents := by
  have hall := pool_nodup (firstBlock cfree) (nblocks cfree nclist)
  have ha := pool_aligned hpos (nblocks cfree nclist)
  obtain ⟨fs, bs, cs, hinv, hd⟩ := h.inv hpos
  have hcontents : w.contents = cs := funext fun i => (hinv.walk hall ha i).1
  rw [hcontents]
  refine ⟨hd, fun i => ⟨?_, (hinv.walk hall ha i).2⟩, ⟨fs, bs, hinv⟩, fun c hc => ?_⟩
  · have hh := hinv.holds i
    cases hbs : bs i with
    | nil =>
      rw [hbs] at hh
      rw [hh.1, hh.2]
      rfl
    | cons b bs' =>
      rw [hbs] at hh
      exact hh.2.2
  · refine (hinv.step hall ha hc).imp_right ?_
    rintro ⟨a, w', fs', bs', cs', hstep, hinv', hdeque⟩
    have hcontents' : w'.contents = cs' := funext fun i => (hinv'.walk hall ha i).1
    exact ⟨a, w', hstep, hcontents' ▸ hdeque⟩

/-- A byte goes through one of two clists. -/
theorem clists_are_queues_byte : ∃ w, Run 2 (World.init 60 3) [(.putc 1 65, .int 0)] w ∧ w.contents 1 = [65] ∧
    Deques [(.putc 1 65, .int 0)] w.contents := by
  have hrun : Run 2 (World.init 60 3) ([] ++ [(.putc 1 65, .int 0)]) _ := .step .init (by decide) rfl
  exact ⟨_, hrun, rfl, (clists_are_queues (by decide) hrun).1⟩

end DiscoBSD.Tty
