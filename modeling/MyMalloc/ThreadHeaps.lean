import MyMalloc.State
import MyMalloc.Lib.MultiplicativeHash

/-!
# The heaps of the threads

A thread has no heap of its own. `get_thread_heap` hashes the identifier of the thread, and
threads with the same hash share a heap. The rest of the development is about any
assignment of heaps to calls; this file is about the one that the hash makes.

An identifier is what `pthread_self` returns, which is the address of a structure: it is
aligned, so its low bits are the same for all threads. They have no influence on how evenly
the threads are spread over the heaps (`MyMalloc.thread_heaps_balanced`).
-/

namespace MyMalloc

open Finset

/-- `LG_MAX_HEAPS`. -/
def lgMaxHeaps : ℕ := 7

/-- `MAX_HEAPS`. -/
def maxHeaps : ℕ := 1 <<< lgMaxHeaps

/-- The factor of the hash. -/
def knuthFactor : ℕ := 11400714819323198485

/-- The index that `get_thread_heap` computes, on 64-bit words. -/
def getThreadHeap (tid : ℕ) : ℕ := (tid * knuthFactor % 2 ^ 64) >>> (64 - lgMaxHeaps)

theorem getThreadHeap_eq (tid : ℕ) :
    getThreadHeap tid = MultiplicativeHash.bucket knuthFactor 64 lgMaxHeaps tid := by
  rw [getThreadHeap, MultiplicativeHash.bucket, Nat.shiftRight_eq_div_pow]

/-- **Every thread has a heap, and every heap its share of the threads**: the index is one of
`thread_heaps`, as the assertion says; and however many of their low bits the identifiers
have in common, up to 57, equally many of them go to each heap. -/
theorem thread_heaps_balanced : (∀ tid, getThreadHeap tid < maxHeaps) ∧
    ∀ m ≤ 57, ∀ low, ∀ i < maxHeaps,
      #{tid ∈ range (2 ^ 64) | tid ≡ low [MOD 2 ^ m] ∧ getThreadHeap tid = i} = 2 ^ (57 - m) := by
  have hodd : Nat.Coprime knuthFactor 2 := by decide
  constructor
  · intro tid
    rw [getThreadHeap_eq]
    exact MultiplicativeHash.bucket_lt (by decide) tid
  · intro m hm low i hi
    have hbits : lgMaxHeaps + m ≤ 64 := by
      rw [lgMaxHeaps]
      omega
    have hcard := MultiplicativeHash.card_bucket hodd (by decide) hbits low (show i < 2 ^ 7 from hi)
    simp only [getThreadHeap_eq]
    exact hcard

/-- Identifiers that are aligned to pages. -/
theorem thread_heaps_balanced_aligned :
    #{tid ∈ range (2 ^ 64) | tid ≡ 0 [MOD 2 ^ 12] ∧ getThreadHeap tid = 5} = 2 ^ 45 :=
  thread_heaps_balanced.2 12 (by decide) 0 5 (by decide)

end MyMalloc
