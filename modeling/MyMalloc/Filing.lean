import MyMalloc.Heap
import MyMalloc.SuperblockSound
import MyMalloc.Lib.LinkedList
import MyMalloc.Lib.Placement

/-!
# Where superblocks are filed

The lists a superblock can be filed in, as lists. A `MyMalloc.Place` names one
of them: an emptiness list of a bin of a heap, or the recycle list of a heap.
`MyMalloc.Represents` says that the pointers of a state lay out a given family
of lists: rings for the emptiness lists, null-terminated chains for the recycle
lists – both through the same `next` links – and counters that count the lists
of the classes above 0.

The pointer operations of `binmanager.c` are then operations on the family:
`push_into_bin` prepends (`MyMalloc.Represents.pushIntoBin`), `delete_from_bin`
removes (`MyMalloc.Represents.deleteFromBin`), and the recycle lists are stacks.
Each keeps every list but the one it names, because the lists of a
`Placement.Distinct` family share no cell.
-/

namespace MyMalloc

open LinkedList Placement

/-- A list superblocks are filed in. -/
inductive Place where
  /-- `bin_manager->emptiness_bins[eidx]`. -/
  | bin (bm : BinPtr) (eidx : ℕ) : Place
  /-- `heap->recycled_superblock`. -/
  | recycle (heap : HeapId) : Place
  deriving DecidableEq, Repr

/-- The lists, by place. -/
abbrev Lists := Place → List ℕ

/-- How many superblocks the lists of the classes above 0 of a bin hold. -/
def nonfull (lists : Lists) (bm : BinPtr) : ℕ :=
  (lists (.bin bm 1)).length + (lists (.bin bm 2)).length + (lists (.bin bm 3)).length +
    (lists (.bin bm 4)).length

/-- **The pointers of a state lay out the lists.** -/
structure Represents (s : State) (lists : Lists) : Prop where
  ring : ∀ bm e, Ring s.next s.prev ((s.sizeBins bm).emptinessBins e) (lists (.bin bm e))
  chain : ∀ heap, Chain s.next (s.recycledSuperblock heap) (lists (.recycle heap))
  count : ∀ bm, (s.sizeBins bm).numNonfullSuperblocks = nonfull lists bm

/-- The zero-initialised state has empty lists. -/
theorem represents_initial : Represents {} fun _ => [] :=
  ⟨fun _ _ => rfl, fun _ => rfl, fun _ => rfl⟩

/-- Every superblock on a list is aligned and lies in user space. -/
def InUserSpace (lists : Lists) : Prop :=
  ∀ p x, x ∈ lists p → superblockSize ∣ x ∧ x < userSpace

/-- **The counters cannot wrap**: user space has room for `2 ^ 29` superblocks. -/
theorem nonfull_le {lists : Lists} (hD : Distinct lists) (hU : InUserSpace lists) (bm : BinPtr) :
    nonfull lists bm ≤ 2 ^ 29 := by
  have hdisj : ∀ e e', e ≠ e' →
      ∀ a ∈ lists (.bin bm e), ∀ b ∈ lists (.bin bm e'), a ≠ b := by
    intro e e' hne a ha b hb hab
    have := hD.unique _ _ _ ha (hab ▸ hb)
    simp_all
  have hnd : (lists (.bin bm 1) ++ lists (.bin bm 2) ++ lists (.bin bm 3) ++
      lists (.bin bm 4)).Nodup := by
    simp only [List.nodup_append, List.mem_append]
    refine ⟨⟨⟨hD.nodup _, hD.nodup _, hdisj 1 2 (by decide)⟩, hD.nodup _, ?_⟩, hD.nodup _, ?_⟩
    · rintro a (ha | ha) <;> [exact hdisj 1 3 (by decide) a ha; exact hdisj 2 3 (by decide) a ha]
    · rintro a ((ha | ha) | ha)
      · exact hdisj 1 4 (by decide) a ha
      · exact hdisj 2 4 (by decide) a ha
      · exact hdisj 3 4 (by decide) a ha
  have hle := AddressSpace.length_le_of_aligned (k := 262144) (n := 2 ^ 29) hnd (by
    intro x hx
    simp only [List.mem_append] at hx
    obtain ⟨hdvd, hlt⟩ : superblockSize ∣ x ∧ x < userSpace := by
      rcases hx with ((hx | hx) | hx) | hx <;> exact hU _ x hx
    exact ⟨by simpa using hdvd, by simpa using hlt⟩)
  simpa [nonfull, Nat.add_assoc] using hle

namespace State

variable (s : State)

/-! ### What the primitive writes change -/

@[simp] theorem assert_true (a : Assertion) : s.assert true a = s := rfl

/-- Writing the head of one list leaves the heads of the others. -/
theorem setHead_emptinessBins (bm bm' : BinPtr) (e e' : ℕ) (t : Option ℕ) :
    ((s.setHead bm e t).sizeBins bm').emptinessBins e' =
      if bm' = bm ∧ e' = e then t else (s.sizeBins bm').emptinessBins e' := by
  by_cases hb : bm' = bm
  · subst hb
    by_cases he : e' = e
    · subst he
      simp [setHead]
    · simp [setHead, he]
  · simp [setHead, hb]

@[simp] theorem setHead_numNonfull (bm bm' : BinPtr) (e : ℕ) (t : Option ℕ) :
    ((s.setHead bm e t).sizeBins bm').numNonfullSuperblocks =
      (s.sizeBins bm').numNonfullSuperblocks := by
  by_cases hb : bm' = bm
  · subst hb
    simp [setHead]
  · simp [setHead, hb]

@[simp] theorem setCount_emptinessBins (bm bm' : BinPtr) (n : ℕ) :
    ((s.setCount bm n).sizeBins bm').emptinessBins = (s.sizeBins bm').emptinessBins := by
  by_cases hb : bm' = bm
  · subst hb
    simp [setCount]
  · simp [setCount, hb]

theorem setCount_numNonfull (bm bm' : BinPtr) (n : ℕ) :
    ((s.setCount bm n).sizeBins bm').numNonfullSuperblocks =
      if bm' = bm then n else (s.sizeBins bm').numNonfullSuperblocks := by
  by_cases hb : bm' = bm
  · subst hb
    simp [setCount]
  · simp [setCount, hb]

/-- `push_into_bin` once its pointers are written. -/
theorem pushIntoBin_eq {s s₁ : State} {bm : BinPtr} {e x : ℕ} (he : e < numEmptinessClasses)
    (h : s.linkHead bm e x = some s₁) :
    s.pushIntoBin bm e x =
      some (if 0 < e then s₁.setCount bm (add32 (s₁.sizeBins bm).numNonfullSuperblocks 1)
        else s₁) := by
  rw [pushIntoBin, guard, if_pos he, h]
  by_cases hpos : 0 < e
  · simp [hpos]
  · simp [hpos]

/-- `delete_from_bin` once its pointers are written, where its assertion holds. -/
theorem deleteFromBin_eq {s s₁ : State} {bm : BinPtr} {e x : ℕ} (he : e < numEmptinessClasses)
    (h : s.unlink bm e x = some s₁)
    (hcount : 0 < e → 0 < (s₁.sizeBins bm).numNonfullSuperblocks) :
    s.deleteFromBin bm e x =
      some (if 0 < e then s₁.setCount bm (sub32 (s₁.sizeBins bm).numNonfullSuperblocks 1)
        else s₁) := by
  rw [deleteFromBin, guard, if_pos he, h]
  by_cases hpos : 0 < e
  · simp [hpos, hcount hpos]
  · simp [hpos]

/-! ### Laying out one list again -/

/-- **One list is laid out again**: where the pointers of `s` laid out `l`, those of
`s'` lay out `l'`. Besides the superblocks of `l` only `x` is touched. -/
structure Relinked (s : State) (bm : BinPtr) (e x : ℕ) (l l' : List ℕ) (s' : State) : Prop where
  next : ∀ u, u ≠ x → u ∉ l → s'.next u = s.next u
  prev : ∀ u, u ≠ x → u ∉ l → s'.prev u = s.prev u
  ring : Ring s'.next s'.prev ((s'.sizeBins bm).emptinessBins e) l'
  heads : ∀ bm' e', ¬(bm' = bm ∧ e' = e) →
    (s'.sizeBins bm').emptinessBins e' = (s.sizeBins bm').emptinessBins e'
  recycled : s'.recycledSuperblock = s.recycledSuperblock

section Relinking

variable {s s₁ s' : State} {bm : BinPtr} {e x : ℕ} {l l' : List ℕ}

/-- The pointers are laid out by one write to the head and writes to links. -/
theorem relinked_setHead {head : Option ℕ}
    (hnext : ∀ u, u ≠ x → u ∉ l → s₁.next u = s.next u)
    (hprev : ∀ u, u ≠ x → u ∉ l → s₁.prev u = s.prev u) (hring : Ring s₁.next s₁.prev head l')
    (hbins : s₁.sizeBins = s.sizeBins) (hrec : s₁.recycledSuperblock = s.recycledSuperblock) :
    s.Relinked bm e x l l' (s₁.setHead bm e head) where
  next := hnext
  prev := hprev
  ring := by
    rw [setHead_emptinessBins, if_pos ⟨rfl, rfl⟩]
    exact hring
  heads bm' e' h := by rw [setHead_emptinessBins, if_neg h, hbins]
  recycled := hrec

/-- The counters are no pointers. -/
theorem Relinked.setCount (h : s.Relinked bm e x l l' s') (bm' : BinPtr) (n : ℕ) :
    s.Relinked bm e x l l' (s'.setCount bm' n) where
  next := h.next
  prev := h.prev
  ring := by
    rw [setCount_emptinessBins]
    exact h.ring
  heads bm'' e' hne := by
    rw [setCount_emptinessBins]
    exact h.heads bm'' e' hne
  recycled := h.recycled

/-- **The pointers `push_into_bin` writes** lay out the list with the superblock in
front. -/
theorem linkHead_relinked (hring : Ring s.next s.prev ((s.sizeBins bm).emptinessBins e) l)
    (hnd : l.Nodup) (hx : x ∉ l) :
    ∃ s₁, s.linkHead bm e x = some s₁ ∧ s₁.toCore = s.toCore ∧ s.Relinked bm e x l (x :: l) s₁ ∧
      ∀ bm', (s₁.sizeBins bm').numNonfullSuperblocks = (s.sizeBins bm').numNonfullSuperblocks := by
  cases l with
  | nil =>
    have hhead : (s.sizeBins bm).emptinessBins e = none := hring
    refine ⟨((s.setPrev x (some x)).setNext x (some x)).setHead bm e (some x), ?_, rfl,
      relinked_setHead (fun u hu _ => Function.update_of_ne hu ..)
        (fun u hu _ => Function.update_of_ne hu ..) (Ring.singleton x) rfl rfl,
      fun bm' => State.setHead_numNonfull _ bm bm' e _⟩
    rw [linkHead, hhead]
    rfl
  | cons a l =>
    have hhead := hring.1
    -- The superblock goes between the last one and the old head.
    obtain ⟨t, ht, hprev, -⟩ := hring.inverse_prev (List.mem_cons_self ..)
    rw [hhead] at hring
    refine ⟨((((s.setNext t (some x)).setPrev x (some t)).setNext x (some a)).setPrev a
      (some x)).setHead bm e (some x), ?_, rfl,
      relinked_setHead (fun u hu hul => ?_) (fun u hu hul => ?_) (hring.insert_head hnd hprev hx)
        rfl rfl, fun bm' => State.setHead_numNonfull _ bm bm' e _⟩
    · rw [linkHead, hhead]
      simp [hprev]
    · have hut : u ≠ t := fun hc => hul (hc ▸ ht)
      exact (Function.update_of_ne hu ..).trans (Function.update_of_ne hut ..)
    · have hua : u ≠ a := fun hc => hul (by simp [hc])
      exact (Function.update_of_ne hua ..).trans (Function.update_of_ne hu ..)

/-- **The pointers `delete_from_bin` writes** lay out the list without the superblock;
its assertions about them hold. -/
theorem unlink_relinked (hring : Ring s.next s.prev ((s.sizeBins bm).emptinessBins e) l)
    (hnd : l.Nodup) (hx : x ∈ l) :
    ∃ s₁, s.unlink bm e x = some s₁ ∧ s₁.toCore = s.toCore ∧
      s.Relinked bm e x l (l.erase x) s₁ ∧
      ∀ bm', (s₁.sizeBins bm').numNonfullSuperblocks = (s.sizeBins bm').numNonfullSuperblocks := by
  obtain ⟨a, rest, hl⟩ := List.exists_cons_of_ne_nil (List.ne_nil_of_mem hx)
  have hhead : (s.sizeBins bm).emptinessBins e = some a := by
    rw [hring.head_eq, hl, List.head?_cons]
  obtain ⟨n, hn, hnext, -⟩ := hring.inverse hx
  obtain ⟨p, hp, hprev, -⟩ := hring.inverse_prev hx
  by_cases hself : p = x
  · -- The superblock is alone, and its links lead to itself.
    subst hself
    have hlist := (hring.prev_self_iff hnd hx).mp hprev
    have hnp : n = p := by simpa [hlist] using hn
    refine ⟨s.setHead bm e none, ?_, rfl,
      relinked_setHead (fun _ _ _ => rfl) (fun _ _ _ => rfl) ?_ rfl rfl,
      fun bm' => s.setHead_numNonfull bm bm' e _⟩
    · simp [unlink, hhead, hprev, hnext, hnp]
    · simp [hlist]
  · have hlinks : ∀ u, u ∉ l → u ≠ p ∧ u ≠ n :=
      fun u hu => ⟨fun hc => hu (hc ▸ hp), fun hc => hu (hc ▸ hn)⟩
    have hdel := hring.delete hnd hx hprev hnext hself
    rw [hhead] at hdel
    have hnexts : ∀ u, u ≠ x → u ∉ l → Function.update s.next p (some n) u = s.next u :=
      fun u _ hu => Function.update_of_ne (hlinks u hu).1 ..
    have hprevs : ∀ u, u ≠ x → u ∉ l → Function.update s.prev n (some p) u = s.prev u :=
      fun u _ hu => Function.update_of_ne (hlinks u hu).2 ..
    by_cases hax : a = x
    · rw [hax, if_pos rfl] at hdel
      refine ⟨((s.setNext p (some n)).setPrev n (some p)).setHead bm e (some n), ?_, rfl,
        relinked_setHead hnexts hprevs hdel rfl rfl,
        fun bm' => State.setHead_numNonfull _ bm bm' e _⟩
      simp [unlink, hhead, hprev, hnext, hself, hax]
    · rw [if_neg (fun hc => hax (Option.some.inj hc)), ← hhead] at hdel
      refine ⟨(s.setNext p (some n)).setPrev n (some p), ?_, rfl,
        ⟨hnexts, hprevs, hdel, fun _ _ _ => rfl, rfl⟩, fun _ => rfl⟩
      simp [unlink, hhead, hprev, hnext, hself, hax]

/-- The data is no pointer. -/
theorem Relinked.setCore (h : s.Relinked bm e x l l' s') (c : Core) :
    s.Relinked bm e x l l' (s'.setCore c) :=
  ⟨h.next, h.prev, h.ring, h.heads, h.recycled⟩

/-- A list that is laid out twice is laid out as at last. -/
theorem Relinked.trans {l'' : List ℕ} (h : s.Relinked bm e x l l' s₁)
    (h' : s₁.Relinked bm e x l' l'' s') (hsub : ∀ u, u ∈ l' → u ∈ l) :
    s.Relinked bm e x l l'' s' where
  next u hu hul := (h'.next u hu fun hc => hul (hsub u hc)).trans (h.next u hu hul)
  prev u hu hul := (h'.prev u hu fun hc => hul (hsub u hc)).trans (h.prev u hu hul)
  ring := h'.ring
  heads bm' e' hne := (h'.heads bm' e' hne).trans (h.heads bm' e' hne)
  recycled := h'.recycled.trans h.recycled

/-- `push_into_bin` on one list, whatever the rest of the pointers. -/
theorem pushIntoBin_relinked (hring : Ring s.next s.prev ((s.sizeBins bm).emptinessBins e) l)
    (hnd : l.Nodup) (he : e < numEmptinessClasses) (hx : x ∉ l) :
    ∃ s', s.pushIntoBin bm e x = some s' ∧ s.Relinked bm e x l (x :: l) s' := by
  obtain ⟨s₁, hs₁, -, hlinks, -⟩ := linkHead_relinked hring hnd hx
  refine ⟨_, pushIntoBin_eq he hs₁, ?_⟩
  split
  · exact hlinks.setCount ..
  · exact hlinks

/-- `delete_from_bin` on one list, whatever the rest of the pointers. -/
theorem deleteFromBin_relinked (hring : Ring s.next s.prev ((s.sizeBins bm).emptinessBins e) l)
    (hnd : l.Nodup) (he : e < numEmptinessClasses) (hx : x ∈ l) :
    ∃ s', s.deleteFromBin bm e x = some s' ∧ s.Relinked bm e x l (l.erase x) s' := by
  obtain ⟨s₁, hs₁, -, hlinks, -⟩ := unlink_relinked hring hnd hx
  rw [deleteFromBin, guard, if_pos he, hs₁]
  by_cases hpos : 0 < e
  · -- The assertion about the counter may fail, which is reported and no more.
    simp only [hpos, if_true]
    exact ⟨_, rfl, (hlinks.setCore _).setCount ..⟩
  · simp only [hpos, if_false]
    exact ⟨s₁, rfl, hlinks⟩

end Relinking

end State

/-! ### The counters -/

theorem nonfull_push (lists : Lists) (bm bm' : BinPtr) {e : ℕ} (he : e < 5) (x : ℕ) :
    nonfull (push lists (.bin bm e) x) bm' =
      if bm' = bm ∧ 0 < e then nonfull lists bm' + 1 else nonfull lists bm' := by
  by_cases hb : bm' = bm
  · subst hb
    have : e = 0 ∨ e = 1 ∨ e = 2 ∨ e = 3 ∨ e = 4 := by omega
    rcases this with rfl | rfl | rfl | rfl | rfl <;> simp [nonfull, push, Function.update] <;> omega
  · simp [nonfull, push, Function.update, hb]

theorem nonfull_take (lists : Lists) (bm bm' : BinPtr) {e : ℕ} (he : e < 5) {x : ℕ}
    (hx : x ∈ lists (.bin bm e)) :
    nonfull (take lists (.bin bm e) x) bm' =
      if bm' = bm ∧ 0 < e then nonfull lists bm' - 1 else nonfull lists bm' := by
  by_cases hb : bm' = bm
  · subst hb
    have hlen := List.length_erase_of_mem hx
    have hpos := List.length_pos_of_mem hx
    have : e = 0 ∨ e = 1 ∨ e = 2 ∨ e = 3 ∨ e = 4 := by omega
    rcases this with rfl | rfl | rfl | rfl | rfl <;>
      simp [nonfull, take, Function.update, hlen] <;> omega
  · simp [nonfull, take, Function.update, hb]

/-- A list of a class above 0 that has a member is counted. -/
theorem nonfull_pos {lists : Lists} {bm : BinPtr} {e : ℕ} (he : e < 5) (he' : 0 < e) {x : ℕ}
    (hx : x ∈ lists (.bin bm e)) : 0 < nonfull lists bm := by
  have hpos := List.length_pos_of_mem hx
  have : e = 1 ∨ e = 2 ∨ e = 3 ∨ e = 4 := by omega
  rcases this with rfl | rfl | rfl | rfl <;> simp only [nonfull] <;> omega

/-! ### Changing one list -/

namespace Represents

variable {s s' : State} {lists : Lists}

/-- **The frame rule**: a state in which the list at `p` is laid out again represents
the family with that list replaced, as soon as it counts right. -/
theorem update_bin (hR : Represents s lists) (hD : Distinct lists) {bm : BinPtr} {e : ℕ}
    {l : List ℕ} {x : ℕ} (hx : x ∈ lists (.bin bm e) ∨ Nowhere lists x)
    (h : s.Relinked bm e x (lists (.bin bm e)) l s')
    (hcount : ∀ bm', (s'.sizeBins bm').numNonfullSuperblocks =
      nonfull (Function.update lists (.bin bm e) l) bm') :
    Represents s' (Function.update lists (.bin bm e) l) := by
  -- The members of the other lists are none of this one, as the lists have no member in common.
  have hout : ∀ q, q ≠ .bin bm e → ∀ u ∈ lists q, u ≠ x ∧ u ∉ lists (.bin bm e) := by
    intro q hq u hu
    refine ⟨?_, fun hc => hq (hD.unique _ _ _ hu hc)⟩
    rintro rfl
    exact hx.elim (fun hc => hq (hD.unique _ _ _ hu hc)) (fun hc => hc q hu)
  refine ⟨fun bm' e' => ?_, fun heap => ?_, hcount⟩
  · by_cases hbin : bm' = bm ∧ e' = e
    · obtain ⟨rfl, rfl⟩ := hbin
      simpa using h.ring
    · have hne : Place.bin bm' e' ≠ .bin bm e := by simpa using hbin
      rw [Function.update_of_ne hne, h.heads bm' e' hbin]
      exact (hR.ring bm' e').congr
        (fun u hu => h.next u (hout _ hne u hu).1 (hout _ hne u hu).2)
        (fun u hu => h.prev u (hout _ hne u hu).1 (hout _ hne u hu).2)
  · have hne : Place.recycle heap ≠ .bin bm e := by simp
    rw [Function.update_of_ne hne, h.recycled]
    exact (hR.chain heap).congr fun u hu => h.next u (hout _ hne u hu).1 (hout _ hne u hu).2

/-- The head of an emptiness list. -/
theorem head_bin (hR : Represents s lists) (bm : BinPtr) (e : ℕ) :
    (s.sizeBins bm).emptinessBins e = (lists (.bin bm e)).head? := (hR.ring bm e).head_eq

/-- The head of a recycle list. -/
theorem head_recycle (hR : Represents s lists) (heap : HeapId) :
    s.recycledSuperblock heap = (lists (.recycle heap)).head? := (hR.chain heap).head_eq

/-- **The pointers determine the lists.** -/
theorem unique {lists' : Lists} (hR : Represents s lists) (hR' : Represents s lists')
    (hD : Distinct lists) (hD' : Distinct lists') : lists = lists' := by
  funext p
  cases p with
  | bin bm e => exact (hR.ring bm e).unique (hR'.ring bm e) (hD.nodup _) (hD'.nodup _)
  | recycle heap => exact (hR.chain heap).unique (hR'.chain heap)

/-- Only the pointers matter. -/
theorem setCore (hR : Represents s lists) (c : Core) : Represents (s.setCore c) lists :=
  ⟨hR.ring, hR.chain, hR.count⟩

/-! ### `push_into_bin` -/

/-- **`push_into_bin` prepends** a superblock that is on no list. -/
theorem pushIntoBin (hR : Represents s lists) (bm : BinPtr) (hD : Distinct lists)
    (hU : InUserSpace lists) {e x : ℕ} (he : e < numEmptinessClasses) (hx : Nowhere lists x) :
    ∃ s', s.pushIntoBin bm e x = some s' ∧ s'.toCore = s.toCore ∧
      Represents s' (push lists (.bin bm e) x) := by
  obtain ⟨s₁, hs₁, hcore, hlinks, hnum⟩ :=
    State.linkHead_relinked (hR.ring bm e) (hD.nodup _) (hx (.bin bm e))
  have hsmall := nonfull_le hD hU bm
  have hcount : ∀ bm', nonfull (push lists (.bin bm e) x) bm' =
      if bm' = bm ∧ 0 < e then nonfull lists bm' + 1 else nonfull lists bm' :=
    fun bm' => nonfull_push lists bm bm' he x
  by_cases hpos : 0 < e
  · refine ⟨s₁.setCount bm (add32 (s₁.sizeBins bm).numNonfullSuperblocks 1), ?_, hcore,
      hR.update_bin hD (Or.inr hx) (hlinks.setCount ..) fun bm' => ?_⟩
    · rw [State.pushIntoBin_eq he hs₁, if_pos hpos]
    · rw [State.setCount_numNonfull]
      refine Eq.trans ?_ (hcount bm').symm
      by_cases hb : bm' = bm
      · subst hb
        rw [if_pos rfl, if_pos ⟨rfl, hpos⟩, hnum, hR.count, add32_eq (by omega)]
      · rw [if_neg hb, if_neg (fun h => hb h.1), hnum, hR.count]
  · refine ⟨s₁, by rw [State.pushIntoBin_eq he hs₁, if_neg hpos], hcore,
      hR.update_bin hD (Or.inr hx) hlinks fun bm' => ?_⟩
    refine Eq.trans ?_ (hcount bm').symm
    rw [if_neg (fun h => hpos h.2), hnum, hR.count]

/-! ### `delete_from_bin` -/

/-- **`delete_from_bin` removes** a superblock from the list it is on; every
assertion on the way holds, and the counter does not wrap. -/
theorem deleteFromBin (hR : Represents s lists) (hD : Distinct lists) (hU : InUserSpace lists)
    {bm : BinPtr} {e x : ℕ} (he : e < numEmptinessClasses) (hx : x ∈ lists (.bin bm e)) :
    ∃ s', s.deleteFromBin bm e x = some s' ∧ s'.toCore = s.toCore ∧
      Represents s' (take lists (.bin bm e) x) := by
  obtain ⟨s₁, hs₁, hcore, hlinks, hnum⟩ :=
    State.unlink_relinked (hR.ring bm e) (hD.nodup _) hx
  have hsmall := nonfull_le hD hU bm
  have hcount : ∀ bm', nonfull (take lists (.bin bm e) x) bm' =
      if bm' = bm ∧ 0 < e then nonfull lists bm' - 1 else nonfull lists bm' :=
    fun bm' => nonfull_take lists bm bm' he hx
  have hassert : 0 < e → 0 < (s₁.sizeBins bm).numNonfullSuperblocks := by
    intro hpos
    rw [hnum, hR.count]
    exact nonfull_pos he hpos hx
  by_cases hpos : 0 < e
  · have hcount_pos := nonfull_pos he hpos hx
    refine ⟨s₁.setCount bm (sub32 (s₁.sizeBins bm).numNonfullSuperblocks 1), ?_, hcore,
      hR.update_bin hD (Or.inl hx) (hlinks.setCount ..) fun bm' => ?_⟩
    · rw [State.deleteFromBin_eq he hs₁ hassert, if_pos hpos]
    · rw [State.setCount_numNonfull]
      refine Eq.trans ?_ (hcount bm').symm
      by_cases hb : bm' = bm
      · subst hb
        rw [if_pos rfl, if_pos ⟨rfl, hpos⟩, hnum, hR.count, sub32_eq (by omega) (by omega)]
      · rw [if_neg hb, if_neg (fun h => hb h.1), hnum, hR.count]
  · refine ⟨s₁, by rw [State.deleteFromBin_eq he hs₁ hassert, if_neg hpos], hcore,
      hR.update_bin hD (Or.inl hx) hlinks fun bm' => ?_⟩
    refine Eq.trans ?_ (hcount bm').symm
    rw [if_neg (fun h => hpos h.2), hnum, hR.count]

/-! ### The recycle lists -/

/-- Replacing the recycle list of one heap. Only the `next` link of a superblock
that is on no other list may have changed. -/
theorem update_recycle (hR : Represents s lists) {heap : HeapId} {l : List ℕ} {x : ℕ}
    (hx : ∀ q, q ≠ .recycle heap → x ∉ lists q)
    (hnext : ∀ u, u ≠ x → s'.next u = s.next u) (hprev : ∀ u, u ≠ x → s'.prev u = s.prev u)
    (hbins : s'.sizeBins = s.sizeBins)
    (hchain : Chain s'.next (s'.recycledSuperblock heap) l)
    (hrec : ∀ heap', heap' ≠ heap → s'.recycledSuperblock heap' = s.recycledSuperblock heap') :
    Represents s' (Function.update lists (.recycle heap) l) := by
  have hout : ∀ q, q ≠ .recycle heap → ∀ u ∈ lists q, u ≠ x := by
    rintro q hq u hu rfl
    exact hx q hq hu
  refine ⟨fun bm' e' => ?_, fun heap' => ?_, fun bm' => ?_⟩
  · have hne : Place.bin bm' e' ≠ .recycle heap := by simp
    rw [Function.update_of_ne hne, hbins]
    exact (hR.ring bm' e').congr (fun u hu => hnext u (hout _ hne u hu))
      (fun u hu => hprev u (hout _ hne u hu))
  · by_cases h : heap' = heap
    · subst h
      simpa using hchain
    · have hne : Place.recycle heap' ≠ .recycle heap := by simpa using h
      rw [Function.update_of_ne hne, hrec heap' h]
      exact (hR.chain heap').congr fun u hu => hnext u (hout _ hne u hu)
  · rw [hbins, hR.count]
    simp [nonfull, Function.update]

/-- Writing the links of a superblock that is on no list changes no list. -/
theorem congr_links (hR : Represents s lists) {x : ℕ} (hx : Nowhere lists x)
    (hnext : ∀ u, u ≠ x → s'.next u = s.next u) (hprev : ∀ u, u ≠ x → s'.prev u = s.prev u)
    (hbins : s'.sizeBins = s.sizeBins) (hrec : s'.recycledSuperblock = s.recycledSuperblock) :
    Represents s' lists := by
  have hout : ∀ q, ∀ u ∈ lists q, u ≠ x := by
    rintro q u hu rfl
    exact hx q hu
  refine ⟨fun bm e => ?_, fun heap => ?_, fun bm => ?_⟩
  · rw [hbins]
    exact (hR.ring bm e).congr (fun u hu => hnext u (hout _ u hu))
      (fun u hu => hprev u (hout _ u hu))
  · rw [hrec]
    exact (hR.chain heap).congr fun u hu => hnext u (hout _ u hu)
  · rw [hbins, hR.count]

/-- **Popping a recycle list** by its head's `next` link. -/
theorem popRecycled (hR : Represents s lists) (hD : Distinct lists) {heap : HeapId} {x : ℕ}
    {l : List ℕ} (hl : lists (.recycle heap) = x :: l) :
    Represents (s.setRecycled heap (s.next x)) (Function.update lists (.recycle heap) l) := by
  have hchain := hR.chain heap
  rw [hl] at hchain
  have hnext : ∀ u, u ≠ x → (s.setRecycled heap (s.next x)).next u = s.next u := fun _ _ => rfl
  refine hR.update_recycle (fun q hq hc => ?_) hnext (fun _ _ => rfl) rfl ?_ fun heap' h => ?_
  · exact hq (hD.unique _ _ _ hc (by simp [hl]))
  · simpa [State.setRecycled] using hchain.2
  · simp [State.setRecycled, h]

/-- **Pushing onto a recycle list** a superblock that is on no list. -/
theorem pushRecycled (hR : Represents s lists) {heap : HeapId} {x : ℕ} (hx : Nowhere lists x) :
    Represents ((s.setNext x (s.recycledSuperblock heap)).setRecycled heap (some x))
      (push lists (.recycle heap) x) := by
  refine hR.update_recycle (x := x) (fun q _ => hx q) (fun u hu => Function.update_of_ne hu ..)
    (fun _ _ => rfl) rfl ?_ fun heap' h => Function.update_of_ne h ..
  have hself : (((s.setNext x (s.recycledSuperblock heap)).setRecycled heap
      (some x)).recycledSuperblock heap) = some x := Function.update_self ..
  rw [hself]
  exact (hR.chain heap).insert_head (hx _)

/-- **Popping a recycle list after its head was reset** drops the whole list:
the link to the rest of it is gone by then. -/
theorem dropRecycled (hR : Represents s lists) (hD : Distinct lists) {heap : HeapId} {x : ℕ}
    {l : List ℕ} (sizeClass : ℕ) (hl : lists (.recycle heap) = x :: l) :
    Represents ((s.resetSuperblock x sizeClass).setRecycled heap
        ((s.resetSuperblock x sizeClass).next x))
      (Function.update lists (.recycle heap) []) := by
  refine hR.update_recycle (x := x) (fun q hq hc => ?_) (fun u hu => Function.update_of_ne hu ..)
    (fun u hu => Function.update_of_ne hu ..) rfl ?_ fun heap' h => Function.update_of_ne h ..
  · exact hq (hD.unique _ _ _ hc (by simp [hl]))
  · simp [State.setRecycled, State.resetSuperblock, State.setNext]

end Represents

end MyMalloc
