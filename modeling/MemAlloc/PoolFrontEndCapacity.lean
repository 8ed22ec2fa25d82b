import MemAlloc.PoolFrontEndRuns

/-!
# When `PoolAllocators` falls back to `malloc`

The loop of `Allocate` breaks off at the first pool whose chunks are large
enough, whether or not that pool has one left. So the fallback is taken
exactly when the request is larger than every chunk, or a thousand chunks of
its own size class are live; free chunks of larger classes do not help.

What is not in use is on the free tables: `GetUsedSize` and the free chunks
add up to `GetTotalSize` all along.
-/

namespace MemAlloc

open PoolAllocator

namespace PoolAllocators

/-- `GetTotalSize`: a `uint32_t` accumulator. -/
def getTotalSize (s : PoolAllocators) : Nat :=
  s.allocators.foldl (fun totalSize a => SizeT.uint32 (SizeT.add totalSize a.getTotalSize)) 0

/-- The bytes on the free tables. -/
def freeBytes (s : PoolAllocators) : Nat :=
  (s.allocators.map fun a => a.chunkSize * a.freeList.length).sum

/-- As long as the sum fits, the accumulator holds it. -/
theorem getTotalSize_eq {s : PoolAllocators}
    (hsum : (s.allocators.map fun a => a.totalSize).sum < 2 ^ 32) :
    s.getTotalSize = (s.allocators.map fun a => a.totalSize).sum := by
  have hloop : ∀ (l : List PoolAllocator) (acc : Nat),
      acc + (l.map fun a => a.totalSize).sum < 2 ^ 32 →
      l.foldl (fun totalSize a => SizeT.uint32 (SizeT.add totalSize a.getTotalSize)) acc
        = acc + (l.map fun a => a.totalSize).sum := by
    intro l
    induction l with
    | nil => intro acc _; rfl
    | cons a l ih =>
        intro acc hacc
        rw [List.map_cons, List.sum_cons] at hacc ⊢
        rw [List.foldl_cons, AllocatorInterface.getTotalSize, SizeT.add_of_lt (by omega),
          SizeT.uint32_of_lt (by omega), ih _ (by omega), Nat.add_assoc]
  rw [getTotalSize, hloop _ 0 (by omega), Nat.zero_add]

end PoolAllocators

namespace FrontSession

open PoolAllocators

variable {chunksNum : Nat} {cfg : List (Nat × Nat)} {w : FrontSession} {size i j : Nat}

theorem FirstFit.unique (hi : FirstFit cfg size i) (hj : FirstFit cfg size j) : i = j := by
  obtain ⟨c, hc, hle, hbefore⟩ := hi
  obtain ⟨d, hd, hle', hbefore'⟩ := hj
  rcases Nat.lt_trichotomy i j with hlt | heq | hlt
  · exact absurd hle (Nat.not_le_of_lt (hbefore' i hlt c hc))
  · exact heq
  · exact absurd hle' (Nat.not_le_of_lt (hbefore j hlt d hd))

namespace WF

variable (h : WF chunksNum cfg w)
include h

/-- Pool `i` serves a request exactly when it is the first whose chunks are
large enough and has one left. -/
theorem allocate_pool_iff (size fallback : Nat) :
    ∃ p server alloc, w.alloc.allocate .none size fallback = .ok (p, server, alloc) ∧
      ∀ i, server = .pool i ↔ FirstFit cfg size i ∧ (w.liveIn i).length < chunksNum := by
  have hsystem : ∀ k, allocateIn .none size w.alloc.allocators
        = .ok (nullptr, k, w.alloc.allocators) →
      w.alloc.allocate .none size fallback = .ok (fallback, .system, w.alloc) := fun k hrun => by
    rw [PoolAllocators.allocate, hrun]
    rfl
  rcases firstFit_cases size cfg with hnone | ⟨k, hfit⟩
  · refine ⟨fallback, .system, w.alloc, hsystem _ (allocateIn_none .none ?_), fun i => ?_⟩
    · intro a ha
      obtain ⟨i, hi⟩ := List.mem_iff_getElem?.mp ha
      obtain ⟨c, hc, hp⟩ := h.exists_cfg hi
      rw [hp.size]
      exact hnone c (List.mem_of_getElem? hc)
    · refine iff_of_false (by rintro ⟨⟩) ?_
      rintro ⟨⟨c, hc, hle, -⟩, -⟩
      exact absurd hle (Nat.not_le_of_lt (hnone c (List.mem_of_getElem? hc)))
  · obtain ⟨c, hc, hle, hbefore⟩ := id hfit
    obtain ⟨a, ha, hp⟩ := h.exists_pool hc
    have hloop := allocateIn_eq .none ha (show size ≤ a.chunkSize by rwa [hp.size])
      fun j hj b hb => by
        obtain ⟨d, hd, hpd⟩ := h.exists_cfg hb
        rw [hpd.size]
        exact hbefore j hj d hd
    by_cases hfull : (w.liveIn k).length = chunksNum
    · rw [hp.allocate_full hfull] at hloop
      obtain ⟨hk, rfl⟩ := List.getElem?_eq_some_iff.mp ha
      refine ⟨fallback, .system, w.alloc, hsystem k (hloop.trans (by simp [Except.map, nullptr])),
        fun i => iff_of_false (by rintro ⟨⟩) ?_⟩
      rintro ⟨hfit', hroom⟩
      obtain rfl := hfit'.unique hfit
      omega
    · have hroom : (w.liveIn k).length < chunksNum := by
        have := hp.length_add
        omega
      obtain ⟨p, a', hrun, hpart⟩ := hp.allocate_some hroom
      have hne : p ≠ nullptr := by
        have hnonnull := h.nonnull c (List.mem_of_getElem? hc)
        have hin := chunk_le (hpart.live_mem (List.mem_cons_self ..))
        simp only [nullptr] at hnonnull ⊢
        omega
      rw [hrun] at hloop
      refine ⟨p, .pool k, ⟨w.alloc.allocators.set k a'⟩, ?_, fun i => ⟨?_, ?_⟩⟩
      · rw [PoolAllocators.allocate, hloop]
        simp [Except.map, hne]
        rfl
      · intro heq
        obtain rfl := Server.pool.inj heq
        exact ⟨hfit, hroom⟩
      · rintro ⟨hfit', -⟩
        rw [hfit'.unique hfit]

/-- Every pool counts its chunks, live or free. -/
theorem used_add_free : (w.alloc.allocators.map fun a => a.used).sum + w.alloc.freeBytes
    = (w.alloc.allocators.map fun a => a.totalSize).sum := by
  have hsum : ∀ l : List PoolAllocator, (∀ a ∈ l,
        a.used + a.chunkSize * a.freeList.length = a.totalSize) →
      (l.map fun a => a.used).sum + (l.map fun a => a.chunkSize * a.freeList.length).sum
        = (l.map fun a => a.totalSize).sum := by
    intro l
    induction l with
    | nil => intro _; rfl
    | cons a l ih =>
        intro hl
        have ha := hl a (List.mem_cons_self ..)
        have ih := ih fun b hb => hl b (List.mem_cons_of_mem _ hb)
        simp only [List.map_cons, List.sum_cons]
        omega
  refine hsum _ fun a ha => ?_
  obtain ⟨i, hi⟩ := List.mem_iff_getElem?.mp ha
  obtain ⟨c, hc, hp⟩ := h.exists_cfg hi
  rw [hp.used, hp.size, hp.total, ← Nat.mul_add, Nat.add_comm, hp.length_add, Nat.mul_comm]

/-- The sizes of the arenas. -/
theorem sum_total : (w.alloc.allocators.map fun a => a.totalSize).sum
    = (cfg.map fun c => chunksNum * c.2).sum := by
  congr 1
  refine List.ext_getElem (by simp [h.length]) fun i hi hi' => ?_
  simp only [List.length_map] at hi hi'
  have hp := h.part (List.getElem?_eq_getElem hi') (List.getElem?_eq_getElem hi)
  simp [hp.total]

end WF

/-- **Who serves a request.** After any run of legal calls on the nine pools,
a request is served by the first pool with large enough chunks if fewer than
a thousand of them are live, and otherwise by the system; `GetTotalSize` is
what it was, the sum of what is in use and what is on the free tables. -/
theorem frontEnd_capacity {mallocs : List (Nat × List Nat)}
    (hlen : mallocs.length = chunkSizes.length)
    (htables : ∀ m ∈ mallocs, m.2.length = sMaxChunksNum) (hnonnull : ∀ m ∈ mallocs, m.1 ≠ nullptr)
    (hapart : (arenas sMaxChunksNum (config mallocs chunkSizes)).Pairwise Apart) :
    ∃ w₀, start sMaxChunksNum chunkSizes mallocs = .ok w₀ ∧ ∀ calls : List FrontCall,
      Runs.All step (Legal (arenas sMaxChunksNum (config mallocs chunkSizes))) w₀ calls →
      ∃ w, Runs.exec step w₀ calls = .ok w ∧
        w.alloc.getTotalSize = sMaxChunksNum * chunkSizes.sum ∧
        w.alloc.getUsedSize + w.alloc.freeBytes = w.alloc.getTotalSize ∧
        ∀ size fallback : Nat, ∃ p server alloc,
          w.alloc.allocate .none size fallback = .ok (p, server, alloc) ∧
          ∀ i, server = .pool i ↔ FirstFit (config mallocs chunkSizes) size i ∧
            (w.liveIn i).length < sMaxChunksNum := by
  obtain ⟨l, hstart, hwf⟩ := wf_start (by decide) hlen htables (by decide) hnonnull hapart
  refine ⟨_, hstart, fun calls hlegal => ?_⟩
  obtain ⟨w, hrun, hw⟩ := Runs.exec_inv (WF sMaxChunksNum (config mallocs chunkSizes))
    (Legal (arenas sMaxChunksNum (config mallocs chunkSizes)))
    (fun _ _ hw hl => step_wf hw hl) hwf hlegal
  have hsizes : (config mallocs chunkSizes).map Prod.snd = chunkSizes := by
    rw [config, List.map_snd_zip]
    rw [List.length_map, hlen]
  have hbytes : ((config mallocs chunkSizes).map fun c => sMaxChunksNum * c.2).sum
      = sMaxChunksNum * chunkSizes.sum := by
    have hmap : ((config mallocs chunkSizes).map fun c => sMaxChunksNum * c.2)
        = ((config mallocs chunkSizes).map Prod.snd).map (sMaxChunksNum * ·) := by
      rw [List.map_map]
      rfl
    rw [hmap, hsizes]
    decide
  have htotal := hw.sum_total.trans hbytes
  have hsmall : sMaxChunksNum * chunkSizes.sum < 2 ^ 32 := by decide
  have hadd := hw.used_add_free
  have hget : w.alloc.getTotalSize = sMaxChunksNum * chunkSizes.sum := by
    rw [getTotalSize_eq (by rw [htotal]; exact hsmall), htotal]
  refine ⟨w, hrun, hget, ?_, hw.allocate_pool_iff⟩
  rw [hget, getUsedSize_eq (by omega), hadd, htotal]

/-- A request of 100 bytes on fresh pools goes to the second. -/
theorem frontEnd_capacity_spaced : ∃ w p alloc,
    start sMaxChunksNum chunkSizes spacedMallocs = .ok w ∧ w.alloc.getTotalSize = 16320000 ∧
      w.alloc.allocate .none 100 nullptr = .ok (p, .pool 1, alloc) := by
  obtain ⟨l, hstart, -⟩ := wf_start (by decide) length_spacedMallocs spacedMallocs_table (by decide)
    spacedMallocs_nonnull spacedMallocs_apart
  obtain ⟨w₀, hstart', hall⟩ := frontEnd_capacity length_spacedMallocs spacedMallocs_table
    spacedMallocs_nonnull spacedMallocs_apart
  obtain rfl := Except.ok.inj (hstart'.symm.trans hstart)
  obtain ⟨w, hrun, htotal, -, hserve⟩ := hall [] (Runs.all_nil _ _)
  obtain rfl := Except.ok.inj hrun
  obtain ⟨p, server, alloc, hallocate, hiff⟩ := hserve 100 nullptr
  have hfit : FirstFit (config spacedMallocs chunkSizes) 100 1 := by
    refine ⟨(20000000, 128), rfl, by decide, fun j hj c hc => ?_⟩
    obtain rfl : j = 0 := Nat.lt_one_iff.mp hj
    obtain rfl : (10000000, 64) = c := Option.some.inj hc
    decide
  obtain rfl := (hiff 1).mpr ⟨hfit, Nat.succ_pos _⟩
  exact ⟨_, p, alloc, hstart, htotal.trans (by decide), hallocate⟩

end FrontSession

end MemAlloc
