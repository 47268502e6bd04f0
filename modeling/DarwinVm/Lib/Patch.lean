import DarwinVm.Lib.Words

/-!
# Patches

Bytes that are written over those of a file, at an offset and without changing its length (`Patch`).
Writing changes the bytes of the patch and no others (`getElem?_writeAll`), patches that lie apart
are all held by the result (`holds_writeAll_of_mem`), and the order in which they are written does
not matter as long as one file holds all of them (`writeAll_eq`).
-/

namespace DarwinVm

/-- Bytes to be written at an offset. -/
structure Patch where
  offset : ℕ
  bytes : Bytes
  deriving DecidableEq

namespace Patch

/-- The offset after the last byte. -/
def stop (p : Patch) : ℕ := p.offset + p.bytes.length

/-- The file with the bytes of the patch in it. -/
def write (p : Patch) (file : Bytes) : Bytes := assign file p.offset p.stop p.bytes

/-- The offset is one of a byte of the patch. -/
def Covers (p : Patch) (k : ℕ) : Prop := p.offset ≤ k ∧ k < p.stop

/-- The file has the bytes of the patch at its place. -/
structure Holds (p : Patch) (file : Bytes) : Prop where
  fits : p.stop ≤ file.length
  bytes : slice file p.offset p.stop = p.bytes

/-- The places of two patches do not meet. -/
def Apart (p q : Patch) : Prop := p.stop ≤ q.offset ∨ q.stop ≤ p.offset

/-- The patch, at an offset that counts from `i` on. -/
def shift (i : ℕ) (p : Patch) : Patch := ⟨i + p.offset, p.bytes⟩

/-- The file after the patches have been written, from the first to the last. -/
def writeAll (ps : List Patch) (file : Bytes) : Bytes := ps.foldl (fun f p => p.write f) file

end Patch

variable {s t file target : Bytes} {i j k : ℕ} {p q : Patch} {ps qs : List Patch}

/-- Slices are equal if their bytes are. -/
theorem slice_congr (h : ∀ k, i ≤ k → k < j → s[k]? = t[k]?) : slice s i j = slice t i j := by
  refine List.ext_getElem? fun n => ?_
  rw [slice, slice, List.getElem?_take, List.getElem?_take]
  split_ifs with hn
  · rw [List.getElem?_drop, List.getElem?_drop]
    exact h (i + n) (by omega) (by omega)
  · rfl

/-- The bytes of equal slices are equal. -/
theorem getElem?_of_slice (h : slice s i j = slice t i j) (hi : i ≤ k) (hj : k < j) :
    s[k]? = t[k]? := by
  have hn : (slice s i j)[k - i]? = (slice t i j)[k - i]? := by rw [h]
  rw [slice, slice, List.getElem?_take_of_lt (by omega), List.getElem?_take_of_lt (by omega),
    List.getElem?_drop, List.getElem?_drop] at hn
  rwa [show i + (k - i) = k by omega] at hn

theorem getElem?_slice (s : Bytes) (i j k : ℕ) :
    (slice s i j)[k]? = if k < j - i then s[i + k]? else none := by
  rw [slice, List.getElem?_take, List.getElem?_drop]

namespace Patch

theorem Apart.symm (h : p.Apart q) : q.Apart p := Or.symm h

theorem stop_shift (i : ℕ) (p : Patch) : (p.shift i).stop = i + p.stop := Nat.add_assoc ..

/-- Patches that lie apart do so wherever their offsets count from. -/
theorem Apart.shift (h : p.Apart q) (i : ℕ) : (p.shift i).Apart (q.shift i) := by
  unfold Apart at h ⊢
  rw [stop_shift, stop_shift]
  dsimp only [Patch.shift]
  omega

/-- A patch that is not empty is held if its bytes are there. -/
theorem holds_of_slice (hpos : 0 < p.bytes.length) (h : slice file p.offset p.stop = p.bytes) :
    p.Holds file := by
  refine ⟨?_, h⟩
  have hlen := congrArg List.length h
  rw [length_slice] at hlen
  unfold stop at hlen ⊢
  omega

theorem length_write (h : p.stop ≤ file.length) : (p.write file).length = file.length :=
  length_assign rfl h

/-- A patch changes no byte outside of its place. -/
theorem getElem?_write (h : p.stop ≤ file.length) (hk : ¬p.Covers k) :
    (p.write file)[k]? = file[k]? := by
  refine getElem?_assign rfl h ?_
  unfold Covers at hk
  omega

/-- What has been written is there. -/
theorem holds_write (h : p.stop ≤ file.length) : p.Holds (p.write file) :=
  ⟨by rw [length_write h]; exact h, slice_assign rfl h⟩

/-- A patch changes nothing in a slice that lies apart from it. -/
theorem slice_write (h : p.stop ≤ file.length) (hij : p.stop ≤ i ∨ j ≤ p.offset) :
    slice (p.write file) i j = slice file i j := by
  refine slice_congr fun k hi hj => getElem?_write h ?_
  unfold Covers
  omega

theorem writeAll_cons : writeAll (p :: ps) file = writeAll ps (p.write file) := rfl

/-- Patches that fit leave the length as it is. -/
theorem length_writeAll : ∀ {ps : List Patch} {file : Bytes}, (∀ p ∈ ps, p.stop ≤ file.length) →
    (writeAll ps file).length = file.length
  | [], _, _ => rfl
  | p :: ps, file, h => by
    rw [List.forall_mem_cons] at h
    have hlen := length_write h.1
    calc (writeAll ps (p.write file)).length = (p.write file).length :=
          length_writeAll (by rw [hlen]; exact h.2)
      _ = file.length := hlen

/-- Patches change no byte outside of their places. -/
theorem getElem?_writeAll : ∀ {ps : List Patch} {file : Bytes}, (∀ p ∈ ps, p.stop ≤ file.length) →
    (∀ p ∈ ps, ¬p.Covers k) → (writeAll ps file)[k]? = file[k]?
  | [], _, _, _ => rfl
  | p :: ps, file, h, hk => by
    rw [List.forall_mem_cons] at h hk
    calc (writeAll ps (p.write file))[k]? = (p.write file)[k]? :=
          getElem?_writeAll (by rw [length_write h.1]; exact h.2) hk.2
      _ = file[k]? := getElem?_write h.1 hk.1

/-- Patches change nothing in a slice that lies apart from all of them. -/
theorem slice_writeAll (h : ∀ p ∈ ps, p.stop ≤ file.length)
    (hij : ∀ p ∈ ps, p.stop ≤ i ∨ j ≤ p.offset) : slice (writeAll ps file) i j = slice file i j := by
  refine slice_congr fun k hi hj => getElem?_writeAll h fun p hp => ?_
  have := hij p hp
  unfold Covers
  omega

/-- A patch that a file holds is held after patches that lie apart from it. -/
theorem Holds.writeAll (hp : p.Holds file) (h : ∀ q ∈ ps, q.stop ≤ file.length)
    (hapart : ∀ q ∈ ps, q.Apart p) : p.Holds (writeAll ps file) where
  fits := by rw [length_writeAll h]; exact hp.fits
  bytes := (slice_writeAll h hapart).trans hp.bytes

/-- Patches that lie apart are all held by the file that they are written to. -/
theorem holds_writeAll_of_mem : ∀ {ps : List Patch} {file : Bytes},
    (∀ p ∈ ps, p.stop ≤ file.length) → ps.Pairwise Apart → p ∈ ps → p.Holds (Patch.writeAll ps file)
  | q :: ps, file, h, hapart, hp => by
    rw [List.forall_mem_cons] at h
    rw [List.pairwise_cons] at hapart
    have hlen := length_write h.1
    have hrest : ∀ p ∈ ps, p.stop ≤ (q.write file).length := by rw [hlen]; exact h.2
    rw [writeAll_cons]
    obtain rfl | hp := List.mem_cons.mp hp
    · exact (holds_write h.1).writeAll hrest fun p hp => (hapart.1 p hp).symm
    · exact holds_writeAll_of_mem hrest hapart.2 hp

/-- If a file holds all of the patches and has the bytes of another outside of them, then it is what
becomes of the other, in whichever order the patches are written. -/
theorem writeAll_eq : ∀ {ps : List Patch} {file : Bytes}, target.length = file.length →
    (∀ p ∈ ps, p.Holds target) → (∀ k, (∀ p ∈ ps, ¬p.Covers k) → target[k]? = file[k]?) →
    writeAll ps file = target
  | [], file, _, _, hout => (List.ext_getElem? fun k => hout k nofun).symm
  | p :: ps, file, hlen, hholds, hout => by
    rw [List.forall_mem_cons] at hholds
    have hfits : p.stop ≤ file.length := hlen ▸ hholds.1.fits
    rw [writeAll_cons]
    refine writeAll_eq (hlen.trans (length_write hfits).symm) hholds.2 fun k hk => ?_
    by_cases hcovers : p.Covers k
    · -- The byte has just been written.
      have hboth : slice target p.offset p.stop = slice (p.write file) p.offset p.stop :=
        hholds.1.bytes.trans (holds_write hfits).bytes.symm
      exact getElem?_of_slice hboth hcovers.1 hcovers.2
    · rw [getElem?_write hfits hcovers]
      exact hout k (List.forall_mem_cons.mpr ⟨hcovers, hk⟩)

/-- A part of a file that holds patches in this part, and other bytes of another file outside of
them, is what becomes of this part of the other file. -/
theorem slice_eq_writeAll (hlen : target.length = file.length)
    (hholds : ∀ p ∈ ps, i + p.stop ≤ j ∧ (p.shift i).Holds target)
    (hout : ∀ k, i ≤ k → k < j → (∀ p ∈ ps, ¬(p.shift i).Covers k) → target[k]? = file[k]?) :
    slice target i j = writeAll ps (slice file i j) := by
  refine (writeAll_eq ?_ (fun p hp => ?_) fun k hk => ?_).symm
  · rw [length_slice, length_slice, hlen]
  · obtain ⟨hstop, hfits, hbytes⟩ := hholds p hp
    rw [stop_shift] at hfits hbytes
    constructor
    · rw [length_slice]
      omega
    · unfold stop at hstop
      rw [slice_slice (by unfold stop; omega)]
      exact hbytes
  · rw [getElem?_slice, getElem?_slice]
    split_ifs with hlt
    · refine hout (i + k) (by omega) (by omega) fun p hp hcovers => hk p hp ?_
      unfold Covers stop shift at hcovers
      unfold Covers stop
      dsimp only at hcovers
      omega
    · rfl

end Patch

end DarwinVm
