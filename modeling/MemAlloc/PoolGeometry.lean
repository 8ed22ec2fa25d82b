import MemAlloc.Extent
import MemAlloc.Pool

/-!
# The geometry of a pool

What `PoolAllocator` computes from its two arguments: the size of the arena,
the size of the table and the addresses of the chunks, each a product of
`size_t` values and so modulo `2 ^ 64`. The constructor asserts that the
chunk size is a multiple of `sizeof(std::size_t)` and divides the size of the
arena; the second assertion divides by the chunk size, and a product that
wrapped around may well be a multiple of it.

`sound_iff`: the geometry of an accepted pool is sound exactly when the chunk
size is not 0 and the chunks together take less than `2 ^ 64` bytes. That a
sound one is so small is the pigeonhole principle (`sum_len_le`): disjoint
chunks inside the arena take no more than its size.
-/

namespace MemAlloc

namespace PoolAllocator

/-- The two assertions of the constructor, in order; `none` if evaluating
them divides by zero. -/
def constructAsserts (chunksNum chunkSize : Nat) : Option Bool :=
  if chunkSize % 8 ≠ 0 then some false
  else if chunkSize = 0 then none
  else some ((construct chunksNum chunkSize).totalSize % chunkSize == 0)

/-- The bytes `Init` requests for the table, `m_chunksNum * sizeof(char*)`. -/
def tableBytes (chunksNum : Nat) : Nat := SizeT.mul chunksNum 8

/-- The chunks whose addresses `Reset` writes into the table. -/
def chunkExtents (arena chunksNum chunkSize : Nat) : List Extent :=
  (slots arena chunksNum chunkSize).map fun ptr => ⟨ptr, chunkSize⟩

/-- Nothing divides by zero, the table takes an address for each chunk, and
on every arena the chunks are pairwise disjoint and lie inside. -/
structure Sound (chunksNum chunkSize : Nat) : Prop where
  divides : constructAsserts chunksNum chunkSize ≠ none
  bytes : chunksNum * 8 ≤ tableBytes chunksNum
  table : ∀ arena table, table.length * 8 = tableBytes chunksNum →
    ∃ s, (construct chunksNum chunkSize).init .none arena table = .ok s ∧
      s.freeChunks = slots arena chunksNum chunkSize
  disjoint : ∀ arena, (chunkExtents arena chunksNum chunkSize).Pairwise fun e f =>
    Disjoint e.bytes f.bytes
  inside : ∀ arena, ∀ e ∈ chunkExtents arena chunksNum chunkSize,
    arena ≤ e.start ∧ e.stop ≤ arena + (construct chunksNum chunkSize).totalSize

variable {chunksNum chunkSize : Nat}

/-- Assertions that do not fail: the chunk size is a multiple of 8. -/
theorem eight_dvd (h : constructAsserts chunksNum chunkSize ≠ some false) : 8 ∣ chunkSize := by
  refine Nat.dvd_of_mod_eq_zero (not_not.mp fun hmod => h ?_)
  rw [constructAsserts, if_pos hmod]

theorem constructAsserts_eq_none :
    constructAsserts chunksNum chunkSize = none ↔ chunkSize = 0 := by
  unfold constructAsserts
  constructor
  · intro hnone
    split at hnone
    · cases hnone
    · split at hnone
      · assumption
      · cases hnone
  · rintro rfl
    rfl

theorem sum_chunkExtents (arena chunksNum chunkSize : Nat) :
    ((chunkExtents arena chunksNum chunkSize).map Extent.len).sum = chunksNum * chunkSize := by
  simp [chunkExtents, slots, Function.comp_def]

/-- The table is filled whenever it has a slot for each chunk. -/
theorem init_slots {arena : Nat} {table : List Nat} (hlen : table.length = chunksNum) :
    ∃ s, (construct chunksNum chunkSize).init .none arena table = .ok s ∧
      s.freeChunks = slots arena chunksNum chunkSize :=
  ⟨_, init_eq arena hlen, rfl⟩

/-- The loop of `Reset` does not stop at the end of the table. -/
theorem resetLoop_stuck {s : PoolAllocator} : ∀ {n : Nat}, s.freeChunks.length < n →
    s.resetLoop n = .error .outOfBounds
  | n + 1, hlt => by
      rcases Nat.lt_or_ge s.freeChunks.length n with hshort | hge
      · rw [resetLoop, resetLoop_stuck hshort, error_bind]
      · have hlen : (slots s.startPtr n s.chunkSize ++ s.freeChunks.drop n).length = n := by
          rw [List.length_append, length_slots, List.length_drop]
          omega
        rw [resetLoop, resetLoop_spec hge, ok_bind, setChunk, if_neg]
        rintro ⟨-, hin⟩
        rw [hlen, Int.toNat_natCast] at hin
        exact Nat.lt_irrefl n hin

theorem reset_stuck {s : PoolAllocator} (hlt : s.freeChunks.length < s.chunksNum) :
    s.reset .none = .error .outOfBounds := by
  have hloop := resetLoop_stuck (s := { s with used := 0 }) hlt
  simp only [reset, lock, pure_bind]
  rw [hloop]
  rfl

/-- **`Init` returns** if and only if the size of the table does not wrap
around. -/
theorem init_returns_iff {arena : Nat} {table : List Nat}
    (hbytes : table.length * 8 = tableBytes chunksNum) :
    (∃ s, (construct chunksNum chunkSize).init .none arena table = .ok s) ↔
      chunksNum * 8 < 2 ^ 64 := by
  constructor
  · rintro ⟨s, hinit⟩
    by_contra hge
    have hlt : tableBytes chunksNum < 2 ^ 64 := SizeT.mul_lt _ _
    have hstuck := reset_stuck (s := { construct chunksNum chunkSize with
      startPtr := arena
      freeChunks := table }) (show table.length < chunksNum by omega)
    cases hstuck.symm.trans hinit
  · intro hlt
    rw [tableBytes, SizeT.mul_of_lt hlt] at hbytes
    obtain ⟨s, hinit, -⟩ := init_slots (Nat.eq_of_mul_eq_mul_right (by decide) hbytes)
    exact ⟨s, hinit⟩

/-- Of a pool whose product does not wrap around the chunks are disjoint and
inside the arena. -/
theorem chunkExtents_of_lt (hlt : chunksNum * chunkSize < 2 ^ 64) (hpos : 0 < chunkSize)
    (arena : Nat) :
    ((chunkExtents arena chunksNum chunkSize).Pairwise fun e f => Disjoint e.bytes f.bytes) ∧
      ∀ e ∈ chunkExtents arena chunksNum chunkSize,
        arena ≤ e.start ∧ e.stop ≤ arena + chunksNum * chunkSize := by
  rw [chunkExtents, slots_eq_chunks hlt]
  constructor
  · rw [List.pairwise_map]
    refine (chunks_nodup hpos).imp_of_mem fun {p q} hp hq hne => ?_
    exact (Extent.disjoint_iff hpos hpos).mpr (chunks_apart hp hq hne)
  · intro e he
    obtain ⟨ptr, hptr, rfl⟩ := List.mem_map.mp he
    exact chunk_le hptr

/-- **The geometry, exactly.** A pool that the constructor's assertions do not
reject is sound if and only if the chunk size is not 0 and the size of the
arena does not wrap around. -/
theorem sound_iff {chunksNum chunkSize : Nat}
    (hasserts : constructAsserts chunksNum chunkSize ≠ some false) :
    Sound chunksNum chunkSize ↔ 0 < chunkSize ∧ chunksNum * chunkSize < 2 ^ 64 := by
  constructor
  · intro h
    refine ⟨Nat.pos_of_ne_zero fun hzero => h.divides (constructAsserts_eq_none.mpr hzero), ?_⟩
    calc chunksNum * chunkSize
        = ((chunkExtents 0 chunksNum chunkSize).map Extent.len).sum := (sum_chunkExtents ..).symm
      _ ≤ (construct chunksNum chunkSize).totalSize := sum_len_le (h.disjoint 0) (h.inside 0)
      _ < 2 ^ 64 := SizeT.mul_lt _ _
  · rintro ⟨hpos, hlt⟩
    have height : 8 ≤ chunkSize := Nat.le_of_dvd hpos (eight_dvd hasserts)
    have htable : chunksNum * 8 < 2 ^ 64 :=
      Nat.lt_of_le_of_lt (Nat.mul_le_mul_left chunksNum height) hlt
    have hbytes : tableBytes chunksNum = chunksNum * 8 := SizeT.mul_of_lt htable
    have htotal : (construct chunksNum chunkSize).totalSize = chunksNum * chunkSize :=
      SizeT.mul_of_lt hlt
    refine ⟨fun hnone => ?_, Nat.le_of_eq hbytes.symm, fun arena table hlen => ?_,
      fun arena => (chunkExtents_of_lt hlt hpos arena).1, fun arena => ?_⟩
    · exact Nat.ne_of_gt hpos (constructAsserts_eq_none.mp hnone)
    · rw [hbytes] at hlen
      exact init_slots (Nat.eq_of_mul_eq_mul_right (by decide) hlen)
    · rw [htotal]
      exact (chunkExtents_of_lt hlt hpos arena).2

/-- The rule on four chunks of 16 bytes. -/
theorem sound_iff_four : Sound 4 16 :=
  (sound_iff (by decide +kernel)).mpr (by decide)

/-- `2 ^ 61 + 1` chunks of 8 bytes are accepted: the products wrap around to
8, an arena of one chunk and a table of one slot. And with chunks of 0 bytes
the assertion itself divides by zero. -/
theorem not_sound_wrapped :
    (constructAsserts (2 ^ 61 + 1) 8 = some true ∧ tableBytes (2 ^ 61 + 1) = 8 ∧
      ¬Sound (2 ^ 61 + 1) 8) ∧
    constructAsserts 1 0 = none ∧ ¬Sound 1 0 := by
  have hbytes : tableBytes (2 ^ 61 + 1) = 8 := by decide +kernel
  refine ⟨⟨by decide +kernel, hbytes, fun h => ?_⟩, rfl, fun h => h.divides rfl⟩
  have hle := h.bytes
  rw [hbytes] at hle
  exact absurd hle (by decide)

end PoolAllocator

end MemAlloc
