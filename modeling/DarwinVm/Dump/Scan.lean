import DarwinVm.Lib.Find
import Mathlib.Data.List.Nodup

/-!
# Scanning a dump for kcdata buffers

`scan` of `tools/oskcdata.py` reads a file in chunks and looks for the magics of kcdata buffers in
each chunk, with the end of what came before it. It misses none (`mem_scan`), but what it keeps are
eight bytes, and a magic has four: one that ends in the last bytes of a chunk lies in them, and is
found again in the next chunk. `scan_once` says for which reads each magic is found once.
-/

namespace DarwinVm.Dump

/-- `MAGICS` -/
def magics : List (ℕ × String) :=
  [(0x53A20900, "OS_REASON"), (0xDEADF157, "CRASHINFO"), (0x59A25807, "STACKSHOT"),
    (0xDE17A59A, "DELTA_STACKSHOT")]

/-- `pats`: the bytes of each magic, with its name. -/
def pats : List (Bytes × String) := magics.map fun m => (leBytes 4 m.1, m.2)

/-- What is yielded for a chunk that is read after `prev`, with the offset of the chunk. -/
def scanChunk (prev : Bytes) (base : ℕ) (buf : Bytes) : List (ℕ × String) :=
  let data := prev ++ buf
  pats.flatMap fun (p, n) => (findAll p data 0).map fun k => (base - prev.length + k, n)

/-- The loop of `scan`, with what each `f.read` returns. It ends with a read of no bytes. -/
def scanFrom : Bytes → ℕ → List Bytes → List (ℕ × String)
  | _, _, [] => []
  | prev, base, buf :: reads =>
    if buf = [] then []
    else scanChunk prev base buf ++ scanFrom ((prev ++ buf).rtake 8) (base + buf.length) reads

/-- `scan`. -/
def scan (reads : List Bytes) : List (ℕ × String) := scanFrom [] 0 reads

/-! ## What should be found -/

/-- The chunks that are read until the end of the file. -/
def chunks (reads : List Bytes) : List Bytes := reads.takeWhile (· ≠ [])

/-- The bytes of the file. -/
def content (reads : List Bytes) : Bytes := (chunks reads).flatten

/-- A magic with this name is at an offset. -/
def IsMagic (file : Bytes) (k : ℕ) (n : String) : Prop :=
  ∃ m, (m, n) ∈ magics ∧ leBytes 4 m <+: file.drop k

/-- A magic that lies before an offset does not lie in the last eight bytes before it. -/
def ClearAt (file : Bytes) (b : ℕ) : Prop := ∀ k n, IsMagic file k n → k + 4 ≤ b → k + 8 < b

/-- No magic lies in the last eight bytes before a chunk. -/
def Clear (reads : List Bytes) : Prop :=
  ∀ before chunk after, chunks reads = before ++ chunk :: after →
    ClearAt (content reads) before.flatten.length

variable {file s t buf : Bytes} {reads : List Bytes} {k : ℕ} {n : String}

/-! ## Magics -/

theorem chunks_cons (h : buf ≠ []) : chunks (buf :: reads) = buf :: chunks reads :=
  List.takeWhile_cons_of_pos (by simpa using h)

theorem content_cons (h : buf ≠ []) : content (buf :: reads) = buf ++ content reads := by
  rw [content, chunks_cons h, List.flatten_cons, content]

theorem content_end : content ([] :: reads) = [] := rfl

/-- A magic is four bytes of the file. -/
theorem IsMagic.le_length (h : IsMagic file k n) : k + 4 ≤ file.length := by
  obtain ⟨m, -, hm⟩ := h
  have hlen := hm.length_le
  rw [length_leBytes, List.length_drop] at hlen
  omega

/-- The magics in a part of the file are those that lie in it. -/
theorem isMagic_append_iff : IsMagic s k n ↔ IsMagic (s ++ t) k n ∧ k + 4 ≤ s.length := by
  constructor
  · intro h
    have hle := h.le_length
    obtain ⟨m, hmem, hm⟩ := h
    refine ⟨⟨m, hmem, ?_⟩, hle⟩
    rw [List.drop_append_of_le_length (by omega)]
    exact hm.trans (List.prefix_append ..)
  · rintro ⟨⟨m, hmem, hm⟩, hle⟩
    refine ⟨m, hmem, ?_⟩
    rw [List.drop_append_of_le_length (by omega)] at hm
    refine List.prefix_of_prefix_length_le hm (List.prefix_append ..) ?_
    rw [length_leBytes, List.length_drop]
    omega

/-- The patterns are not empty, and their names differ. -/
theorem pats_ne_nil {p : Bytes} (h : (p, n) ∈ pats) : p ≠ [] := by
  obtain ⟨m, -, hm⟩ := List.mem_map.mp h
  rintro rfl
  have hlen := congrArg List.length (congrArg Prod.fst hm)
  rw [length_leBytes] at hlen
  cases hlen

theorem nodup_names : (pats.map Prod.snd).Nodup := by decide

/-! ## One chunk -/

/-- In a chunk after `s`, the magics are found that lie in it and the last eight bytes of `s`. -/
theorem mem_scanChunk : (k, n) ∈ scanChunk (s.rtake 8) s.length buf ↔
    IsMagic (s ++ buf) k n ∧ s.length ≤ k + 8 := by
  have hprev : (s.rtake 8).length = s.length - (s.length - 8) := List.length_drop
  -- The chunk's data start at this offset.
  have hdrop : ∀ i, (s ++ buf).drop (s.length - 8 + i) = (s.rtake 8 ++ buf).drop i := by
    intro i
    rw [← List.drop_drop, List.drop_append_of_le_length (by omega)]
    rfl
  have hstart : s.length - (s.rtake 8).length = s.length - 8 := by omega
  rw [scanChunk, List.mem_flatMap]
  constructor
  · rintro ⟨⟨p, n'⟩, hp, hk⟩
    obtain ⟨i, hi, heq⟩ := List.mem_map.mp hk
    rw [Prod.mk.injEq] at heq
    obtain ⟨rfl, rfl⟩ := heq
    obtain ⟨-, hfound⟩ := (mem_findAll (pats_ne_nil hp)).mp hi
    obtain ⟨⟨m, name⟩, hm, hpat⟩ := List.mem_map.mp hp
    rw [Prod.mk.injEq] at hpat
    obtain ⟨rfl, rfl⟩ := hpat
    rw [hstart]
    refine ⟨⟨m, hm, ?_⟩, by omega⟩
    rw [hdrop]
    exact hfound
  · rintro ⟨⟨m, hm, hk⟩, hle⟩
    have hp : (leBytes 4 m, n) ∈ pats := List.mem_map.mpr ⟨(m, n), hm, rfl⟩
    obtain ⟨i, rfl⟩ : ∃ i, k = s.length - 8 + i := ⟨k - (s.length - 8), by omega⟩
    rw [hdrop] at hk
    refine ⟨(leBytes 4 m, n), hp, List.mem_map.mpr ⟨i, ?_, ?_⟩⟩
    · exact (mem_findAll (pats_ne_nil hp)).mpr ⟨Nat.zero_le i, hk⟩
    · rw [hstart]

/-- In a chunk, nothing is found twice. -/
theorem nodup_scanChunk (prev : Bytes) (base : ℕ) (buf : Bytes) :
    (scanChunk prev base buf).Nodup := by
  rw [scanChunk, List.nodup_flatMap]
  constructor
  · rintro ⟨p, n⟩ hp
    refine (nodup_findAll (pats_ne_nil hp)).map fun i j h => ?_
    rw [Prod.mk.injEq] at h
    omega
  · refine (List.pairwise_map.mp nodup_names).imp fun hne x hx hy => ?_
    obtain ⟨i, -, rfl⟩ := List.mem_map.mp hx
    obtain ⟨j, -, heq⟩ := List.mem_map.mp hy
    exact hne (congrArg Prod.snd heq).symm

/-! ## All chunks -/

/-- What is found after `s` has been read: all magics, but for those that end before the last eight
bytes of `s`. -/
theorem mem_scanFrom : ∀ (reads : List Bytes) (s : Bytes),
    (k, n) ∈ scanFrom (s.rtake 8) s.length reads ↔
      content reads ≠ [] ∧ IsMagic (s ++ content reads) k n ∧ s.length ≤ k + 8
  | [], s => iff_of_false List.not_mem_nil fun h => h.1 rfl
  | buf :: reads, s => by
    rw [scanFrom]
    by_cases hbuf : buf = []
    · rw [if_pos hbuf, hbuf]
      exact iff_of_false List.not_mem_nil fun h => h.1 content_end
    · have hne : content (buf :: reads) ≠ [] := by
        rw [content_cons hbuf]
        exact List.append_ne_nil_of_left_ne_nil hbuf _
      have hrest := mem_scanFrom reads (s ++ buf)
      rw [List.append_assoc, ← content_cons hbuf, List.length_append] at hrest
      have hchunk := isMagic_append_iff (s := s ++ buf) (t := content reads) (k := k) (n := n)
      rw [List.append_assoc, ← content_cons hbuf, List.length_append] at hchunk
      rw [if_neg hbuf, List.mem_append, rtake_rtake_append, hrest, mem_scanChunk, hchunk,
        and_iff_right hne]
      constructor
      · rintro (⟨⟨hmagic, -⟩, hle⟩ | ⟨-, hmagic, hle⟩)
        · exact ⟨hmagic, hle⟩
        · exact ⟨hmagic, by omega⟩
      · rintro ⟨hmagic, hle⟩
        by_cases hend : k + 4 ≤ s.length + buf.length
        · exact Or.inl ⟨⟨hmagic, hend⟩, hle⟩
        · -- The magic ends in a later chunk.
          refine Or.inr ⟨fun hnil => hend ?_, hmagic, by omega⟩
          have hlen := hmagic.le_length
          rw [content_cons hbuf, hnil, List.append_nil, List.length_append] at hlen
          exact hlen

/-- Every magic is found, and nothing else is. -/
theorem mem_scan : (k, n) ∈ scan reads ↔ IsMagic (content reads) k n := by
  have hmem : (k, n) ∈ scan reads ↔
      content reads ≠ [] ∧ IsMagic ([] ++ content reads) k n ∧ 0 ≤ k + 8 := mem_scanFrom reads []
  rw [List.nil_append] at hmem
  refine hmem.trans ⟨fun h => h.2.1, fun h => ⟨fun hnil => ?_, h, Nat.zero_le _⟩⟩
  have hlen := h.le_length
  rw [hnil] at hlen
  cases hlen

/-- No magic lies in the last eight bytes before a chunk that is read after `s` and another chunk. -/
def ClearFrom (s : Bytes) (reads : List Bytes) : Prop :=
  ∀ before chunk after, chunks reads = before ++ chunk :: after → before ≠ [] →
    ClearAt (s ++ content reads) (s.length + before.flatten.length)

/-- The end of the first chunk, and the ends of the later ones. -/
theorem clearFrom_cons (hbuf : buf ≠ []) : ClearFrom s (buf :: reads) ↔
    (content reads ≠ [] → ClearAt (s ++ buf ++ content reads) (s ++ buf).length) ∧
      ClearFrom (s ++ buf) reads := by
  unfold ClearFrom
  rw [chunks_cons hbuf, content_cons hbuf, ← List.append_assoc]
  constructor
  · intro h
    constructor
    · intro hne
      match hchunks : chunks reads with
      | [] =>
        rw [content, hchunks] at hne
        exact absurd rfl hne
      | chunk :: after =>
        have hfirst := h [buf] chunk after (by rw [hchunks]; rfl) (List.cons_ne_nil _ _)
        rwa [List.flatten_singleton, ← List.length_append] at hfirst
    · intro before chunk after hchunks hne
      have hlater := h (buf :: before) chunk after (by rw [hchunks]; rfl) (List.cons_ne_nil _ _)
      rwa [List.flatten_cons, List.length_append, ← Nat.add_assoc, ← List.length_append] at hlater
  · rintro ⟨hfirst, hlater⟩ before chunk after hchunks hne
    obtain ⟨b, before, rfl⟩ := List.exists_cons_of_ne_nil hne
    rw [List.cons_append, List.cons.injEq] at hchunks
    obtain ⟨rfl, hchunks⟩ := hchunks
    rw [List.flatten_cons, List.length_append, ← Nat.add_assoc, ← List.length_append]
    by_cases hnil : before = []
    · -- The chunk comes right after the first one.
      subst hnil
      rw [List.flatten_nil, List.length_nil, Nat.add_zero]
      refine hfirst fun hcontent => ?_
      have hmem : chunk ∈ chunks reads := by
        rw [hchunks]
        exact List.mem_append_right _ (List.mem_cons_self ..)
      have hpos : chunk ≠ [] := by simpa using List.mem_takeWhile_imp hmem
      exact hpos (List.flatten_eq_nil_iff.mp hcontent chunk hmem)
    · exact hlater before chunk after hchunks hnil

/-- Nothing is found twice, after `s` has been read, if no magic lies in the last eight bytes before
a chunk. -/
theorem nodup_scanFrom : ∀ (reads : List Bytes) (s : Bytes),
    (scanFrom (s.rtake 8) s.length reads).Nodup ↔ ClearFrom s reads
  | [], s => by
    refine iff_of_true List.nodup_nil fun before chunk after h => ?_
    exact absurd h.symm (List.append_ne_nil_of_right_ne_nil _ (List.cons_ne_nil _ _))
  | buf :: reads, s => by
    rw [scanFrom]
    by_cases hbuf : buf = []
    · subst hbuf
      rw [if_pos rfl]
      refine iff_of_true List.nodup_nil fun before chunk after h => ?_
      exact absurd h.symm (List.append_ne_nil_of_right_ne_nil _ (List.cons_ne_nil _ _))
    · rw [if_neg hbuf, rtake_rtake_append, ← List.length_append, List.nodup_append,
        nodup_scanFrom reads (s ++ buf), clearFrom_cons hbuf, and_iff_right (nodup_scanChunk _ _ _),
        and_comm]
      refine and_congr_left fun _ => ?_
      constructor
      · -- A magic in the last eight bytes of the chunk would be found in the next one too.
        intro h hne k n hmagic hend
        by_contra hlast
        have hchunk : (k, n) ∈ scanChunk (s.rtake 8) s.length buf := by
          rw [mem_scanChunk, isMagic_append_iff (s := s ++ buf) (t := content reads)]
          rw [List.length_append] at hlast
          exact ⟨⟨hmagic, hend⟩, by omega⟩
        have hrest := (mem_scanFrom reads (s ++ buf)).mpr ⟨hne, hmagic, by omega⟩
        exact h _ hchunk _ hrest rfl
      · rintro h ⟨k, n⟩ hchunk ⟨k', n'⟩ hrest heq
        obtain ⟨rfl, rfl⟩ := Prod.mk.inj heq
        obtain ⟨hne, hmagic, hle⟩ := (mem_scanFrom reads (s ++ buf)).mp hrest
        obtain ⟨hchunk, -⟩ := mem_scanChunk.mp hchunk
        have := h hne k n hmagic hchunk.le_length
        omega

/-- The magics of the file are found, and each once, exactly when no magic lies in the last eight
bytes before a chunk. -/
theorem scan_once (reads : List Bytes) :
    ((scan reads).Nodup ∧ ∀ k n, (k, n) ∈ scan reads ↔ IsMagic (content reads) k n) ↔
      Clear reads := by
  have hnodup := nodup_scanFrom reads []
  rw [and_iff_left fun k n => mem_scan]
  refine hnodup.trans ⟨fun h before chunk after hchunks => ?_, fun h before chunk after hchunks _ => ?_⟩
  · by_cases hnil : before = []
    · subst hnil
      intro k n _ hend
      rw [List.flatten_nil, List.length_nil] at hend ⊢
      omega
    · have hat := h before chunk after hchunks hnil
      rwa [List.nil_append, List.length_nil, Nat.zero_add] at hat
  · rw [List.nil_append, List.length_nil, Nat.zero_add]
    exact h before chunk after hchunks

/-- Two chunks, of which the first ends in a magic. -/
theorem not_nodup_scan (pad : Bytes) : ¬(scan [pad ++ leBytes 4 0x53A20900, [0]]).Nodup := by
  intro h
  have hne : pad ++ leBytes 4 0x53A20900 ≠ [] :=
    List.append_ne_nil_of_right_ne_nil _ (List.cons_ne_nil _ _)
  have hrest : content [[0]] = [0] := rfl
  have hclear := ((clearFrom_cons hne).mp ((nodup_scanFrom _ []).mp h)).1 (by rw [hrest]; simp)
  have hmagic : IsMagic ([] ++ (pad ++ leBytes 4 0x53A20900) ++ content [[0]]) pad.length
      "OS_REASON" := by
    refine ⟨0x53A20900, List.mem_cons_self .., ?_⟩
    rw [List.nil_append, List.append_assoc, List.drop_left]
    exact List.prefix_append ..
  have hat := hclear pad.length "OS_REASON" hmagic
  rw [List.nil_append, List.length_append, length_leBytes] at hat
  have := hat le_rfl
  omega

/-- A file of 64 MiB and one byte, with a magic in the last four bytes of the first chunk. -/
theorem not_scan_once : ¬∀ reads : List Bytes,
    (scan reads).Nodup ∧ ∀ k n, (k, n) ∈ scan reads ↔ IsMagic (content reads) k n := by
  intro h
  exact not_nodup_scan (List.replicate (2 ^ 26 - 4) 0) (h _).1

end DarwinVm.Dump
