import MyMalloc.ThreadSteps
import Mathlib.Data.Fintype.Basic

/-!
# Ownership under interleaving

When a thread in `heap_free` starts `bin_free` it goes by the owner it has read
before it locked that heap. Whether the heap is still the owner then, and the
superblock in one of its bins, is the question of this file.

It is not always so. `heap_free` reads the owner under the mutex of the
superblock only, and `transfer_sb_to_global`, `get_sb_from_global` and `bin_alloc`
take a superblock out of its lists and assign its owner without that mutex. The
owner that was read is stale in two cases, which `MyMalloc.Machine.RespectsOwners`
excludes: a superblock is taken out of the lists of a heap while another thread that
has read its owner waits for that heap; or a thread reads the owner of a
superblock that has been taken out and has not been assigned its new owner yet.
In all other interleavings the owner is the one that was read
(`MyMalloc.frees_owned`).
-/

namespace MyMalloc

open LinkedList Placement Locking Depot ByteMemory

/-! ### Points -/

namespace Pc

/-- The superblock whose owner a thread reads next. -/
def reading : Pc → Option ℕ
  | .freeOwner ptr => some (superblockOf ptr)
  | _ => none

/-- The size a thread searches the global heap for next. -/
def fetching : Pc → Option ℕ
  | .globalFetch _ size => some size
  | _ => none

variable {pc pc' : Pc} {a : Action Mutex} {x : ℕ}

/-- A thread goes by an owner once it has read it. -/
theorem Next.awaited (h : Next pc a pc') (hx : pc'.awaited = some x) :
    pc.awaited = some x ∨ pc.reading = some x := by
  cases h with
  | freeOwner => exact Or.inr hx
  | freeLock => exact Or.inl hx
  | _ => cases hx

/-- A superblock in hand awaits its owner, or has it and is about to be filed. -/
theorem taken_or_allocFrom (h : pc.hand = some x) :
    pc.taken = some x ∨ ∃ i size new, pc = .allocFrom i size x new := by
  cases pc with
  | allocFrom i size y new =>
    obtain rfl := Option.some.inj h
    exact Or.inr ⟨i, size, new, rfl⟩
  | globalUnlock => exact Or.inl h
  | allocOwn => exact Or.inl h
  | moveLock => exact Or.inl h
  | movePut => exact Or.inl h
  | _ => cases h

/-- **What two threads do not share**: neither a superblock in hand nor a block, and
neither goes by an owner the other is about to assign. -/
structure Apart (pc q : Pc) : Prop where
  hand : ∀ x, pc.hand = some x → q.hand ≠ some x
  block : ∀ p, pc.block = some p → q.block ≠ some p
  awaited : ∀ x, pc.awaited = some x → q.taken ≠ some x
  taken : ∀ x, pc.taken = some x → q.awaited ≠ some x

theorem Apart.symm {q : Pc} (h : Apart pc q) : Apart q pc where
  hand x hq hp := h.hand x hp hq
  block p hq hp := h.block p hp hq
  awaited x hq hp := h.taken x hp hq
  taken x hq hp := h.awaited x hp hq

end Pc

namespace Machine

variable {T : Type} {m : Machine T} {d : Depot} {t u : T} {x : ℕ}

/-! ### The property and the condition -/

/-- **A thread that starts `bin_free` has locked the owner** of the superblock, and
the superblock is in a bin of that heap. -/
def Owned (m : Machine T) : Prop :=
  ∀ t ptr sizeClass heap, m.threads.point t = .freeBin ptr sizeClass heap →
    (m.state.header (superblockOf ptr)).owner = some heap ∧
      ∃ lists, Represents m.state lists ∧
        ∃ b e, superblockOf ptr ∈ lists (.bin (heap, b) e)

/-- **No owner is read too late or assigned too soon**: a thread reads the owner of
no superblock that awaits its new owner, and takes no superblock out of the
lists of a heap while another thread goes by its owner. The thread itself may go by
it, as `heap_free` does when it takes out the superblock of the block it has freed. -/
def RespectsOwners (m : Machine T) : Event T → Prop
  | .act t mmap =>
    (∀ x ∈ (m.threads.point t).reading, ∀ u, (m.threads.point u).taken ≠ some x) ∧
    ∀ pc ∈ (m.state.advance mmap (m.threads.point t)).map Prod.fst, ∀ x ∈ pc.taken,
      x ∈ (m.threads.point t).taken ∨ ∀ u, u ≠ t → (m.threads.point u).awaited ≠ some x
  | _ => True

/-- **No superblock comes from the recycle list of the global heap to another
class than its own.** -/
def Matching (m : Machine T) : Event T → Prop
  | .act t _ => ∀ size ∈ (m.threads.point t).fetching, m.state.FetchMatches (binOf size)
  | _ => True

instance [Fintype T] [DecidableEq T] (m : Machine T) : DecidablePred m.RespectsOwners
  | .act _ _ => inferInstanceAs (Decidable (_ ∧ _))
  | .call _ _ => isTrue trivial
  | .write .. => isTrue trivial

instance (m : Machine T) : DecidablePred m.Matching
  | .act t _ => inferInstanceAs (Decidable (∀ size ∈ (m.threads.point t).fetching, _))
  | .call _ _ => isTrue trivial
  | .write .. => isTrue trivial

/-! ### The invariant -/

/-- **The depot models the machine.** What is in transit is in the hands of a
thread, a live block is a client's or a thread's, and the threads share nothing. -/
structure Models (m : Machine T) (d : Depot) : Prop where
  refines : Refines m.state d
  inv : d.Inv
  consistent : Consistent Pc.held m.threads
  points : ∀ t, d.At (m.threads.point t)
  apart : ∀ t u, t ≠ u → (m.threads.point t).Apart (m.threads.point u)
  transit : ∀ x ∈ d.transit, ∃ t, (m.threads.point t).hand = some x
  client : ∀ b ∈ m.live, b ∈ d.live
  clientBlock : ∀ t, ∀ b ∈ m.live, (m.threads.point t).block ≠ some b.1

/-- **Where a superblock with a live block is**: in a bin of its owner, or in the
hands of a thread. -/
theorem Models.bin_or_hand (h : m.Models d) {p n : ℕ} (hp : (p, n) ∈ d.live) :
    (∃ heap b e, (d.core.header (superblockOf p)).owner = some heap ∧
      superblockOf p ∈ d.lists (.bin (heap, b) e)) ∨
    ∃ u, (m.threads.point u).hand = some (superblockOf p) := by
  have hsb := (h.inv.live_known _ hp).1
  have hlive : liveIn d.live (superblockOf p) ≠ [] := List.ne_nil_of_mem (Inv.mem_liveIn hp)
  rcases h.inv.covered _ hsb hlive with htransit | ⟨⟨heap, b⟩, e, hx⟩
  · exact Or.inr (h.transit _ htransit)
  · exact Or.inl ⟨heap, b, e, (h.inv.fits _ _ hx).1, hx⟩

/-- A superblock that does not await an owner has one. -/
theorem Models.owner (h : m.Models d) {p n : ℕ} (hp : (p, n) ∈ d.live)
    (hfree : ∀ u, (m.threads.point u).taken ≠ some (superblockOf p)) :
    ∃ heap, (d.core.header (superblockOf p)).owner = some heap := by
  rcases h.bin_or_hand hp with ⟨heap, b, e, howner, -⟩ | ⟨u, hu⟩
  · exact ⟨heap, howner⟩
  · rcases Pc.taken_or_allocFrom hu with htaken | ⟨i, size, new, hpc⟩
    · exact absurd htaken (hfree u)
    · have hknows := (h.points u).knows
      rw [hpc] at hknows
      exact ⟨.thread i, hknows.2.2⟩

/-- **A thread that starts `bin_free` finds the superblock in a bin** of the heap it
has locked. -/
theorem Models.linked (h : m.Models d) {ptr sizeClass : ℕ} {heap : HeapId}
    (hpc : m.threads.point t = .freeBin ptr sizeClass heap) :
    (d.core.header (superblockOf ptr)).owner = some heap ∧
      ∃ b e, superblockOf ptr ∈ d.lists (.bin (heap, b) e) := by
  have hat := h.points t
  rw [hpc] at hat
  obtain ⟨n, hn⟩ := hat.block ptr rfl
  have howner : (d.core.header (superblockOf ptr)).owner = some heap := hat.knows.2
  refine ⟨howner, ?_⟩
  rcases h.bin_or_hand hn with ⟨heap', b, e, howner', hx⟩ | ⟨u, hu⟩
  · obtain rfl := Option.some.inj (howner'.symm.trans howner)
    exact ⟨b, e, hx⟩
  · exfalso
    rcases Pc.taken_or_allocFrom hu with htaken | ⟨i, size, new, hpcu⟩
    · by_cases htu : t = u
      · rw [← htu, hpc] at htaken
        cases htaken
      · exact (h.apart t u htu).awaited _ (by rw [hpc]; rfl) htaken
    · -- The thread that has it in hand holds the mutex of its owner, too.
      have hknows := (h.points u).knows
      rw [hpcu] at hknows
      obtain rfl := Option.some.inj (howner.symm.trans hknows.2.2)
      have htu : t = u := by
        refine h.consistent.exclusive (l := .heap (.thread i)) ?_ ?_
        · rw [hpc]
          exact List.mem_cons_self ..
        · rw [hpcu]
          exact List.mem_cons_self ..
      rw [← htu, hpc] at hpcu
      cases hpcu

theorem Models.owned (h : m.Models d) : m.Owned := by
  rintro t ptr sizeClass heap hpc
  obtain ⟨howner, b, e, hx⟩ := h.linked hpc
  rw [h.refines.core]
  exact ⟨howner, d.lists, h.refines.represents, b, e, hx⟩

/-! ### Steps -/

section Steps

variable [DecidableEq T]

/-- **A thread moves on**, and what it leaves to the others and has at its new point
is still what the invariant asks for. -/
theorem Models.move (h : m.Models d) {a : Action Mutex} {pc : Pc} {s : State} {d' : Depot}
    {live : List (ℕ × ℕ)} (hmoves : a.Moves (m.threads.point t).held pc.held)
    (havail : Available m.threads.holder a) (hR : Refines s d') (hd : d'.Inv) (hat : d'.At pc)
    (hframe : Frame d d' (m.threads.point t) pc)
    (hblock : ∀ u, u ≠ t → ∀ p, pc.block = some p → (m.threads.point u).block ≠ some p)
    (htaken : ∀ u, u ≠ t → ∀ x, pc.taken = some x → (m.threads.point u).awaited ≠ some x)
    (hawaited : ∀ u, u ≠ t → ∀ x, pc.awaited = some x → (m.threads.point u).taken ≠ some x)
    (hclient : ∀ b ∈ live, b ∈ d'.live) (hself : ∀ b ∈ live, pc.block ≠ some b.1)
    (hothers : ∀ u, u ≠ t → ∀ b ∈ live, (m.threads.point u).block ≠ some b.1) :
    Models ⟨s, m.threads.move t a pc, live⟩ d' := by
  have hpoint : ∀ u, u ≠ t → (m.threads.move t a pc).point u = m.threads.point u :=
    fun u hu => m.threads.move_of_ne hu a pc
  have hnew := m.threads.move_self t a pc
  -- The thread and another one.
  have hapart : ∀ u, u ≠ t → pc.Apart (m.threads.point u) := by
    rintro u hu
    refine ⟨fun x hx hc => ?_, hblock u hu, hawaited u hu, htaken u hu⟩
    have hold := hframe.fresh x hx ((h.points u).hand x hc)
    exact (h.apart t u hu.symm).hand x hold hc
  refine ⟨hR, hd, h.consistent.move hmoves (Pc.nodup_held _) havail, fun u => ?_, fun u v huv => ?_,
    fun x hx => ?_, hclient, fun u b hb => ?_⟩
  · by_cases hu : u = t
    · rw [hu, hnew]
      exact hat
    · rw [hpoint u hu]
      have hut := h.apart u t hu
      exact (h.points u).frame hframe hut.hand hut.block hut.awaited
  · by_cases hu : u = t
    · have hv : v ≠ t := fun hc => huv (hu.trans hc.symm)
      rw [hu, hnew, hpoint v hv]
      exact hapart v hv
    · by_cases hv : v = t
      · rw [hv, hnew, hpoint u hu]
        exact (hapart u hu).symm
      · rw [hpoint u hu, hpoint v hv]
        exact h.apart u v huv
  · -- What is in transit is in the hands of the thread, or of the same one as before.
    rcases hframe.hands x hx with hx | ⟨hx, hne⟩
    · exact ⟨t, hnew.symm ▸ hx⟩
    · obtain ⟨u, hu⟩ := h.transit x hx
      have hut : u ≠ t := by
        rintro rfl
        exact hne hu
      exact ⟨u, (hpoint u hut).symm ▸ hu⟩
  · by_cases hu : u = t
    · rw [hu, hnew]
      exact hself b hb
    · rw [hpoint u hu]
      exact hothers u hu b hb

/-- **A call** starts with what the caller promises. -/
theorem Models.call (h : m.Models d) {c : Call} (hlegal : m.Legal (.call t c)) :
    Models ⟨m.state, m.threads.move t .work (Pc.start c), m.liveAfterCall c⟩ d := by
  cases c with
  | heapAlloc i size =>
    obtain ⟨hidle, -, hsize⟩ := hlegal
    refine h.move ?_ trivial h.refines h.inv ⟨fun _ => nofun, fun _ => nofun, hsize⟩ ?_
      (fun _ _ _ => nofun) (fun _ _ _ => nofun) (fun _ _ _ => nofun) h.client (fun _ _ => nofun)
      fun u _ => h.clientBlock u
    · rw [hidle]
      rfl
    · rw [hidle]
      exact Frame.still (c := d.core) rfl rfl
  | heapFree ptr =>
    -- The block passes from the client to the thread.
    obtain ⟨hidle, b, hb, rfl⟩ := hlegal
    refine h.move ?_ trivial h.refines h.inv ⟨fun _ => nofun, fun p hp => ?_, trivial⟩ ?_
      (fun u _ p hp => ?_) (fun _ _ _ => nofun) (fun _ _ _ => nofun)
      (fun b' hb' => h.client b' (List.mem_of_mem_filter hb')) (fun b' hb' hc => ?_)
      fun u _ b' hb' => h.clientBlock u b' (List.mem_of_mem_filter hb')
    · rw [hidle]
      rfl
    · obtain rfl := Option.some.inj hp
      exact ⟨b.2, h.client b hb⟩
    · rw [hidle]
      exact Frame.still (c := d.core) rfl rfl
    · obtain rfl := Option.some.inj hp
      exact h.clientBlock u b hb
    · have hne := (List.mem_filter.mp hb').2
      simp [Option.some.inj hc] at hne

omit [DecidableEq T] in
/-- What the clients own after a step they owned before, or a thread hands it over. -/
theorem mem_liveAfterAct {pc : Pc} {b : ℕ × ℕ} (hb : b ∈ m.liveAfterAct pc) :
    b ∈ m.live ∨ ∃ i, pc = .allocUnlock i b.2 (some b.1) := by
  cases pc with
  | allocUnlock i size retPtr =>
    cases retPtr with
    | none => exact Or.inl hb
    | some p =>
      rcases List.mem_cons.mp hb with rfl | hb
      · exact Or.inr ⟨i, rfl⟩
      · exact Or.inl hb
  | _ => exact Or.inl hb

/-- **A step of a thread** in a call, and what it does to the depot. -/
theorem Models.takes (h : m.Models d) {mmap : Option ℕ} (hlegal : m.Legal (.act t mmap))
    (howners : m.RespectsOwners (.act t mmap)) (hmatch : m.Matching (.act t mmap)) :
    ∃ pc' s' d', m.state.advance mmap (m.threads.point t) = some (pc', s') ∧
      Models ⟨s', m.threads.move t (m.threads.point t).action pc',
        m.liveAfterAct (m.threads.point t)⟩ d' ∧
      d.ThreadStep (m.state.sourceAt (m.threads.point t)) (m.threads.point t) pc' d' ∧
      Frame d d' (m.threads.point t) pc' := by
  obtain ⟨hidle, havail, hmmap⟩ := hlegal
  obtain ⟨hreading, htakes⟩ := howners
  have hmapped : m.state.mapped = d.core.mapped := by rw [h.refines.core]
  rw [hmapped] at hmmap
  have hat := h.points t
  obtain ⟨pc', s', d', hadv, hR', hd', hat', hframe, hnew, hstep⟩ :
      m.state.Takes d mmap (m.threads.point t) := by
    refine State.takes h.refines h.inv hat hidle hmmap (fun i size hpc => ?_)
      (fun ptr hpc => ?_) fun ptr sizeClass heap hpc => (h.linked hpc).2
    · exact hmatch size (by rw [hpc]; rfl)
    · obtain ⟨n, hn⟩ := hat.block ptr (by rw [hpc]; rfl)
      exact h.owner hn (hreading _ (by rw [hpc]; rfl))
  have hnext := State.advance_next hadv
  -- A block the thread comes by was not live, so that no other thread has it.
  have hblock : ∀ u, u ≠ t → ∀ p, pc'.block = some p → (m.threads.point u).block ≠ some p := by
    rintro u hu p hp hc
    rcases hnew p hp with hold | hfresh
    · exact (h.apart t u hu.symm).block p hold hc
    · obtain ⟨n, hn⟩ := (h.points u).block p hc
      exact hfresh n hn
  refine ⟨pc', s', d', hadv, h.move hnext.moves havail hR' hd' hat' hframe hblock
    (fun u hu x hx => ?_) (fun u hu x hx => ?_) (fun b hb => ?_) (fun b hb hc => ?_)
    fun u hu b hb => ?_, hstep, hframe⟩
  · rcases htakes pc' (by rw [hadv]; rfl) x hx with hold | hnone
    · exact (h.apart t u hu.symm).taken x hold
    · exact hnone u hu
  · rcases hnext.awaited hx with hold | hread
    · exact (h.apart t u hu.symm).awaited x hold
    · exact hreading x hread u
  · rcases mem_liveAfterAct hb with hb | ⟨i, hpc⟩
    · exact hframe.live b (h.client b hb) fun hc => h.clientBlock t b hb (Pc.block_of_frees hc)
    · have hknows := hat.knows
      rw [hpc] at hknows
      exact hframe.live b (hknows _ rfl) (by rw [hpc]; nofun)
  · rcases mem_liveAfterAct hb with hb | ⟨i, hpc⟩
    · rcases hnew _ hc with hold | hfresh
      · exact h.clientBlock t b hb hold
      · exact hfresh b.2 (h.client b hb)
    · rw [hpc] at hnext
      cases hnext
      cases hc
  · rcases mem_liveAfterAct hb with hb | ⟨i, hpc⟩
    · exact h.clientBlock u b hb
    · exact (h.apart t u hu.symm).block _ (by rw [hpc]; rfl)

/-- An event of a thread, once its step is known. -/
theorem step_act {mmap : Option ℕ} {pc' : Pc} {s' : State}
    (h : m.state.advance mmap (m.threads.point t) = some (pc', s')) :
    m.step (.act t mmap) = some ⟨s', m.threads.move t (m.threads.point t).action pc',
      m.liveAfterAct (m.threads.point t)⟩ := by
  simp only [step, h, Option.bind_eq_bind, Option.bind_some]
  rfl

/-- **A step of a thread** in a call. -/
theorem Models.act (h : m.Models d) {mmap : Option ℕ} (hlegal : m.Legal (.act t mmap))
    (howners : m.RespectsOwners (.act t mmap)) (hmatch : m.Matching (.act t mmap)) :
    ∃ m' d', m.step (.act t mmap) = some m' ∧ m'.Models d' := by
  obtain ⟨pc', s', d', hadv, hM', -, -⟩ := h.takes hlegal howners hmatch
  exact ⟨_, d', step_act hadv, hM'⟩

omit [DecidableEq T] in
/-- What a client writes into its block is of no concern to the threads. -/
theorem Models.written (h : m.Models d) {ptr off : ℕ} {bytes : List UInt8}
    (hlegal : m.Legal (.write ptr off bytes)) :
    Models ⟨m.state.setCore { m.state.toCore with mem := store m.state.mem (ptr + off) bytes },
      m.threads, m.live⟩ (d.setCore { d.core with mem := store d.core.mem (ptr + off) bytes }) := by
  obtain ⟨b, hb, rfl, hlen⟩ := hlegal
  refine ⟨⟨by rw [h.refines.core]; rfl, h.refines.represents.setCore _⟩,
    h.inv.write (h.client b hb) hlen, h.consistent, fun t => ?_, h.apart, h.transit, h.client,
    h.clientBlock⟩
  obtain ⟨hhand, hblock, hknows⟩ := h.points t
  refine ⟨hhand, hblock, ?_⟩
  cases hpc : m.threads.point t <;> rw [hpc] at hknows <;> exact hknows

/-- **A client writes** into its block. -/
theorem Models.write (h : m.Models d) {ptr off : ℕ} {bytes : List UInt8}
    (hlegal : m.Legal (.write ptr off bytes)) :
    ∃ m' d', m.step (.write ptr off bytes) = some m' ∧ m'.Models d' :=
  ⟨_, _, rfl, h.written hlegal⟩

/-- **Every event keeps the invariant**, and meets no fault. -/
theorem Models.step (h : m.Models d) {e : Event T} (hlegal : m.Legal e)
    (howners : m.RespectsOwners e) (hmatch : m.Matching e) :
    ∃ m' d', m.step e = some m' ∧ m'.Models d' := by
  cases e with
  | call t c => exact ⟨_, d, rfl, h.call hlegal⟩
  | act t mmap => exact h.act hlegal howners hmatch
  | write ptr off bytes => exact h.write hlegal

end Steps

/-- The machine a program starts as. -/
theorem models_initial : Models ({} : Machine T) ⟨{}, fun _ => [], [], []⟩ where
  refines := ⟨rfl, represents_initial⟩
  inv := Depot.inv_initial
  consistent l t := by simp [Pc.held]
  points _ := ⟨fun _ => nofun, fun _ => nofun, trivial⟩
  apart _ _ _ := ⟨fun _ => nofun, fun _ => nofun, fun _ => nofun, fun _ => nofun⟩
  transit _ h := absurd h List.not_mem_nil
  client _ h := absurd h List.not_mem_nil
  clientBlock _ _ h := absurd h List.not_mem_nil

end Machine

/-! ### Interleaved executions -/

/-- **The owner that was read is the owner**, for any number of threads in any
interleaving of `heap_alloc` and `heap_free`, as long as no owner is read too late
or assigned too soon, and no superblock comes from the recycle list of the global
heap to another class than its own: whenever a thread starts `bin_free`, the heap
it has locked is the owner of the superblock, and the superblock is in one of its
bins. Such an execution meets no fault. -/
theorem frees_owned {T : Type} [DecidableEq T] {events : List (Event T)}
    (h : Trace.Always Machine.step (fun m e => m.Legal e ∧ m.RespectsOwners e ∧ m.Matching e) {}
      events) :
    ∃ m, Trace.run Machine.step {} events = some m ∧ m.Owned := by
  have hrule : ∀ (m : Machine T) e, (∃ d, m.Models d) →
      m.Legal e ∧ m.RespectsOwners e ∧ m.Matching e →
      ∃ m', m.step e = some m' ∧ ∃ d, m'.Models d := by
    rintro m e ⟨d, hM⟩ ⟨hlegal, howners, hmatch⟩
    obtain ⟨m', d', hm', hM'⟩ := hM.step hlegal howners hmatch
    exact ⟨m', hm', d', hM'⟩
  obtain ⟨m, hrun, d, hM⟩ := Trace.run_of_always hrule ⟨_, Machine.models_initial⟩ h
  exact ⟨m, hrun, hM.owned⟩

/-- A complete `heap_alloc` that ends up with a new superblock mapped at `ptr`. -/
def allocNewEvents {T : Type} (t : T) (i size ptr : ℕ) : List (Event T) :=
  .call t (.heapAlloc i size) :: List.replicate 5 (.act t none) ++
    .act t (some ptr) :: List.replicate 3 (.act t none)

/-- Two threads free blocks of one heap; one has locked it, the other waits. -/
def bothFree : List (Event Bool) :=
  allocNewEvents false 0 16 1048576 ++ allocNewEvents true 0 32 2097152 ++
    [.call true (.heapFree 1048704), .act true none, .call false (.heapFree 2097280),
      .act true none, .act false none, .act false none, .act true none]

/-- The first of the two threads goes by the right owner. -/
theorem frees_owned_waiting : ∃ m, Trace.run Machine.step {} bothFree = some m ∧ m.Owned ∧
    m.threads.point true = .freeBin 1048704 16 (.thread 0) ∧
    m.threads.point false = .freeLock 2097280 32 (.thread 0) := by
  have hlegal : Trace.Always Machine.step
      (fun m e => m.Legal e ∧ m.RespectsOwners e ∧ m.Matching e) {} bothFree := by
    decide +kernel
  obtain ⟨m, hrun, howned⟩ := frees_owned hlegal
  have hpoints : (Trace.run Machine.step {} bothFree).map (fun m =>
      (m.threads.point true, m.threads.point false)) =
      some (.freeBin 1048704 16 (.thread 0), .freeLock 2097280 32 (.thread 0)) := by
    decide +kernel
  rw [hrun, Option.map_some, Option.some_inj, Prod.mk.injEq] at hpoints
  exact ⟨m, hrun, howned, hpoints⟩

/-- One thread reads the owner of a superblock and waits for that heap. The other
has locked it, frees a block of a second superblock, and moves the first one, the
emptiest, to the global heap. -/
def staleFree : List (Event Bool) :=
  allocNewEvents false 0 16 1048576 ++ allocNewEvents false 0 32 2097152 ++
    .call false (.heapAlloc 0 32) :: List.replicate 3 (.act false none) ++
    allocNewEvents false 0 48 3145728 ++ allocNewEvents false 0 64 4194304 ++
    allocNewEvents false 0 96 5242880 ++
    .call true (.heapFree 1048704) :: List.replicate 2 (.act true none) ++
    .call false (.heapFree 2097280) :: List.replicate 9 (.act false none) ++ [.act true none]

/-- **The owner that was read may be stale**: the second thread starts `bin_free` on a
superblock of the global heap, under the mutex of a thread heap. -/
theorem frees_stale_owner : Trace.Always Machine.step Machine.Legal {} staleFree ∧
    ∃ m, Trace.run Machine.step {} staleFree = some m ∧ ¬m.Owned := by
  refine ⟨by decide +kernel, ?_⟩
  have hfacts : (Trace.run Machine.step {} staleFree).map (fun m =>
      (m.threads.point true, (m.state.header 1048576).owner)) =
      some (.freeBin 1048704 16 (.thread 0), some .global) := by
    decide +kernel
  obtain ⟨m, hrun, hm⟩ := Option.map_eq_some_iff.mp hfacts
  obtain ⟨hpoint, howner⟩ := Prod.mk.inj hm
  refine ⟨m, hrun, fun h => ?_⟩
  have hsb : superblockOf 1048704 = 1048576 := by decide
  have hstale := (h true _ _ _ hpoint).1
  rw [hsb, howner] at hstale
  cases hstale

end MyMalloc
