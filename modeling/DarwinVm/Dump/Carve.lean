import DarwinVm.Lib.Except
import DarwinVm.Lib.Words

/-!
# Carving property lists out of a dump

A binary property list ends in a trailer of 32 bytes, which tells how far before it the list starts.
`carve` of `tools/bplist_carve.py` looks for the end of a list whose start is known: it tries one
offset after the other, and has `plistlib` parse the bytes up to each that comes after a plausible
trailer. It stops one offset too early (`carve_spec`), and `carve_finds_iff` says for which bytes the
list that it finds is the shortest there is.
-/

namespace DarwinVm.Dump

/-- What `try_end` raises if the trailer is not in the buffer. -/
inductive TrailerError
  /-- `IndexError` -/
  | index
  /-- `struct.error` -/
  | struct
  deriving DecidableEq

/-- `try_end`. -/
def tryEnd (buf : Bytes) (start stop : ℕ) : Except TrailerError Bool :=
  if stop < start + 40 then .ok false
  else
    let t := slice buf (stop - 32) stop
    if slice t 0 5 ≠ List.replicate 5 0 then .ok false
    else
      match t[6]?, t[7]? with
      | some offSize, some refSize =>
        if ¬(1 ≤ offSize.toNat ∧ offSize.toNat ≤ 8) ∨ ¬(1 ≤ refSize.toNat ∧ refSize.toNat ≤ 8) then
          .ok false
        else if (slice t 8 32).length ≠ 24 then .error .struct
        else
          let num := be64 t 8
          let top := be64 t 16
          let table := be64 t 24
          if num = 0 ∨ 2 ^ 22 < num ∨ num ≤ top then .ok false
          else if table < 8 ∨ start + table + num * offSize.toNat ≠ stop - 32 then .ok false
          else .ok true
      | _, _ => .error .index

variable {α : Type} (load : Bytes → Option α) (buf : Bytes) (start : ℕ)

/-- The loop of `carve` over the ends. What `plistlib.load` returns is `load`, which is `none` if it
raises an exception. -/
def carveFrom : List ℕ → Except TrailerError (Option (α × ℕ))
  | [] => .ok none
  | stop :: ends => do
    if ← tryEnd buf start stop then
      match load (slice buf start stop) with
      | some x => .ok (some (x, stop - start))
      | none => carveFrom ends
    else carveFrom ends

/-- `limit`: the end of the buffer, or of the window. -/
def carveLimit (window : ℕ) : ℕ := min buf.length (start + window)

/-- `carve`, with `none` for `(None, 0)`. -/
def carve (window : ℕ) : Except TrailerError (Option (α × ℕ)) :=
  carveFrom load buf start (List.range' (start + 40) (carveLimit buf start window - (start + 40)))

/-! ## What should be found -/

/-- The bytes from `start` to `stop` end in a trailer of the format. -/
structure Trailer (stop : ℕ) : Prop where
  length : start + 40 ≤ stop
  unused : slice buf (stop - 32) (stop - 27) = List.replicate 5 0
  offsetSize : 1 ≤ byteAt buf (stop - 26) ∧ byteAt buf (stop - 26) ≤ 8
  refSize : 1 ≤ byteAt buf (stop - 25) ∧ byteAt buf (stop - 25) ≤ 8
  objects : 0 < be64 buf (stop - 24) ∧ be64 buf (stop - 24) ≤ 2 ^ 22
  top : be64 buf (stop - 16) < be64 buf (stop - 24)
  /-- The offset table comes after the magic, and ends where the trailer starts. -/
  table : 8 ≤ be64 buf (stop - 8) ∧
    start + be64 buf (stop - 8) + be64 buf (stop - 24) * byteAt buf (stop - 26) = stop - 32

/-- The bytes from `start` to `stop` are a property list. -/
def IsPlist (stop : ℕ) (x : α) : Prop :=
  Trailer buf start stop ∧ load (slice buf start stop) = some x

/-- The shortest property list is returned with its length, of those that end where they may. -/
def Finds (mayEnd : ℕ → Prop) : Option (α × ℕ) → Prop
  | some (x, n) => mayEnd (start + n) ∧ IsPlist load buf start (start + n) x ∧
      ∀ stop < start + n, ∀ y, ¬IsPlist load buf start stop y
  | none => ∀ stop, mayEnd stop → ∀ x, ¬IsPlist load buf start stop x

variable {load buf start} {stop : ℕ}

/-! ## Trailers -/

/-- Within the buffer, `try_end` tells whether there is a trailer. -/
theorem tryEnd_spec (start : ℕ) (h : stop ≤ buf.length) :
    ∃ b, tryEnd buf start stop = .ok b ∧ (b = true ↔ Trailer buf start stop) := by
  have hno : (¬Trailer buf start stop) →
      ∃ b, (Except.ok false : Except TrailerError Bool) = .ok b ∧
        (b = true ↔ Trailer buf start stop) :=
    fun hnot => ⟨false, rfl, iff_of_false Bool.false_ne_true hnot⟩
  unfold tryEnd
  by_cases hlength : stop < start + 40
  · rw [if_pos hlength]
    exact hno fun ht => by have := ht.length; omega
  · rw [if_neg hlength]
    dsimp only
    generalize htail : slice buf (stop - 32) stop = t
    have hlen : t.length = 32 := by
      rw [← htail, length_slice]
      omega
    -- What the code reads of the trailer is read of the buffer.
    have hpart : ∀ i j, i ≤ 32 → j ≤ 32 →
        slice t i j = slice buf (stop - (32 - i)) (stop - (32 - j)) := by
      intro i j hi hj
      rw [← htail, slice_slice (by omega)]
      congr 1 <;> omega
    have hunused : slice t 0 5 = slice buf (stop - 32) (stop - 27) := hpart 0 5 (by omega) (by omega)
    have hbyte : ∀ i, i < 32 → byteAt t i = byteAt buf (stop - (32 - i)) := by
      intro i hi
      rw [byteAt, byteAt, hpart i (i + 1) (by omega) (by omega)]
      congr 2
      omega
    have hword : ∀ i, i + 8 ≤ 32 → be64 t i = be64 buf (stop - (32 - i)) := by
      intro i hi
      rw [be64, be64, hpart i (i + 8) (by omega) (by omega)]
      congr 2
      omega
    obtain ⟨offSize, hoff⟩ : ∃ b, t[6]? = some b := ⟨_, List.getElem?_eq_getElem (by omega)⟩
    obtain ⟨refSize, href⟩ : ∃ b, t[7]? = some b := ⟨_, List.getElem?_eq_getElem (by omega)⟩
    have hoffSize : offSize.toNat = byteAt buf (stop - 26) :=
      (byteAt_of_getElem? hoff).symm.trans (hbyte 6 (by omega))
    have hrefSize : refSize.toNat = byteAt buf (stop - 25) :=
      (byteAt_of_getElem? href).symm.trans (hbyte 7 (by omega))
    have hthree : (slice t 8 32).length = 24 := by
      rw [length_slice]
      omega
    rw [hoff, href]
    dsimp only
    have hnum : be64 t 8 = be64 buf (stop - 24) := hword 8 (by omega)
    have htop : be64 t 16 = be64 buf (stop - 16) := hword 16 (by omega)
    have htab : be64 t 24 = be64 buf (stop - 8) := hword 24 (by omega)
    rw [hunused, hoffSize, hrefSize, hnum, htop, htab]
    -- Each check is a field of the trailer.
    split_ifs with hzeros hsizes hshort hobjects htable
    · exact hno fun ht => hzeros ht.unused
    · refine hno fun ht => ?_
      obtain hoffset | hreference := hsizes
      · exact hoffset ht.offsetSize
      · exact hreference ht.refSize
    · exact absurd hthree hshort
    · refine hno fun ht => ?_
      have hpos := ht.objects
      have hlt := ht.top
      omega
    · refine hno fun ht => ?_
      obtain hmagic | hend := htable
      · exact absurd ht.table.1 (by omega)
      · exact hend ht.table.2
    · refine ⟨true, rfl, iff_of_true rfl ?_⟩
      rw [not_or, not_not, not_not] at hsizes
      exact ⟨by omega, not_not.mp hzeros, hsizes.1, hsizes.2, by omega, by omega, by omega⟩

/-! ## The search -/

/-- A property list has at least 40 bytes. -/
theorem IsPlist.le {x : α} (h : IsPlist load buf start stop x) : start + 40 ≤ stop := h.1.length

/-- One more end is tried. -/
theorem carveFrom_cons (load : Bytes → Option α) (start : ℕ) (h : stop ≤ buf.length)
    (ends : List ℕ) :
    (∃ x, IsPlist load buf start stop x ∧
      carveFrom load buf start (stop :: ends) = .ok (some (x, stop - start))) ∨
    ((∀ x, ¬IsPlist load buf start stop x) ∧
      carveFrom load buf start (stop :: ends) = carveFrom load buf start ends) := by
  obtain ⟨b, hb, htrailer⟩ := tryEnd_spec start h
  have hcarve : carveFrom load buf start (stop :: ends) =
      (tryEnd buf start stop).bind fun b =>
        if b then
          match load (slice buf start stop) with
          | some x => .ok (some (x, stop - start))
          | none => carveFrom load buf start ends
        else carveFrom load buf start ends := rfl
  rw [hcarve, hb, Except.bind]
  cases b with
  | false =>
    refine Or.inr ⟨fun x hx => ?_, rfl⟩
    exact Bool.false_ne_true (htrailer.mpr hx.1)
  | true =>
    rw [if_pos rfl]
    cases hload : load (slice buf start stop) with
    | none =>
      refine Or.inr ⟨fun x hx => ?_, rfl⟩
      cases hload.symm.trans hx.2
    | some x => exact Or.inl ⟨x, ⟨htrailer.mp rfl, hload⟩, rfl⟩

/-- Ends that are tried in a row, when no shorter list ends before them. -/
theorem carveFrom_range (load : Bytes → Option α) (start : ℕ) : ∀ (n a : ℕ), a + n ≤ buf.length →
    (∀ stop < a, ∀ x, ¬IsPlist load buf start stop x) →
    ∃ r, carveFrom load buf start (List.range' a n) = .ok r ∧
      Finds load buf start (· < a + n) r
  | 0, a, _, hbefore => ⟨none, rfl, fun stop hstop => hbefore stop hstop⟩
  | n + 1, a, hn, hbefore => by
    rw [List.range'_succ]
    obtain ⟨x, hx, hcarve⟩ | ⟨hnone, hcarve⟩ :=
      carveFrom_cons load start (show a ≤ buf.length by omega) (List.range' (a + 1) n)
    · have hle := hx.le
      have hend : start + (a - start) = a := by omega
      refine ⟨some (x, a - start), hcarve, ?_⟩
      show start + (a - start) < a + (n + 1) ∧ IsPlist load buf start (start + (a - start)) x ∧
        ∀ stop < start + (a - start), ∀ y, ¬IsPlist load buf start stop y
      rw [hend]
      exact ⟨by omega, hx, hbefore⟩
    · obtain ⟨r, hr, hfinds⟩ := carveFrom_range load start n (a + 1) (by omega) fun stop hstop x hx => by
        obtain hlt | rfl := Nat.lt_succ_iff_lt_or_eq.mp hstop
        · exact hbefore stop hlt x hx
        · exact hnone x hx
      refine ⟨r, hcarve.trans hr, ?_⟩
      rwa [show a + (n + 1) = a + 1 + n by omega]

/-- The shortest property list is found of those that end before the limit. -/
theorem carve_spec (load : Bytes → Option α) (buf : Bytes) (start window : ℕ) :
    ∃ r, carve load buf start window = .ok r ∧
      Finds load buf start (· < carveLimit buf start window) r := by
  have hlimit : carveLimit buf start window ≤ buf.length := Nat.min_le_left ..
  have hbefore : ∀ stop < start + 40, ∀ x, ¬IsPlist load buf start stop x := by
    intro stop hstop x hx
    have := hx.le
    omega
  by_cases hle : start + 40 ≤ carveLimit buf start window
  · obtain ⟨r, hr, hfinds⟩ := carveFrom_range load start
      (carveLimit buf start window - (start + 40)) (start + 40) (by omega) hbefore
    refine ⟨r, hr, ?_⟩
    rwa [show start + 40 + (carveLimit buf start window - (start + 40)) =
      carveLimit buf start window by omega] at hfinds
  · -- There are no ends to try.
    refine ⟨none, ?_, fun stop hstop => hbefore stop (by omega)⟩
    rw [carve, Nat.sub_eq_zero_of_le (by omega)]
    rfl

/-- The shortest property list in the window is found, if there is one, exactly when a list that ends
at the limit is not the shortest. -/
theorem carve_finds_iff (load : Bytes → Option α) (buf : Bytes) (start window : ℕ) :
    (∃ r, carve load buf start window = .ok r ∧
      Finds load buf start (· ≤ carveLimit buf start window) r) ↔
    ((∃ x, IsPlist load buf start (carveLimit buf start window) x) →
      ∃ stop < carveLimit buf start window, ∃ x, IsPlist load buf start stop x) := by
  obtain ⟨r, hr, hfinds⟩ := carve_spec load buf start window
  generalize carveLimit buf start window = limit at hfinds ⊢
  constructor
  · rintro ⟨r', hr', hfinds'⟩ ⟨x, hx⟩
    obtain rfl : r = r' := Except.ok.inj (hr.symm.trans hr')
    cases r with
    | none => exact absurd hx (hfinds' limit le_rfl x)
    | some p => exact ⟨start + p.2, hfinds.1, p.1, hfinds.2.1⟩
  · intro h
    refine ⟨r, hr, ?_⟩
    cases r with
    | some p => exact ⟨hfinds.1.le, hfinds.2⟩
    | none =>
      intro stop hstop x hx
      obtain hlt | rfl := Nat.lt_or_eq_of_le hstop
      · exact hfinds stop hlt x hx
      · obtain ⟨stop, hlt, y, hy⟩ := h ⟨x, hx⟩
        exact hfinds stop hlt y hy

/-- `plistlib.dumps(True, fmt=plistlib.FMT_BINARY)` -/
def truePlist : Bytes :=
  [98, 112, 108, 105, 115, 116, 48, 48, 9, 8, 0, 0, 0, 0, 0, 0, 1, 1, 0, 0, 0, 0, 0, 0, 0, 1,
    0, 0, 0, 0, 0, 0, 0, 0, 0, 0, 0, 0, 0, 0, 0, 9]

/-- A list that is the whole dump. -/
theorem not_carve_finds : ¬∀ (load : Bytes → Option Bool) (buf : Bytes) (start window : ℕ),
    ∃ r, carve load buf start window = .ok r ∧
      Finds load buf start (· ≤ carveLimit buf start window) r := by
  intro h
  obtain ⟨r, hr, hfinds⟩ := h (fun s => if s = truePlist then some true else none) truePlist 0 4096
  have hnone : carve (fun s => if s = truePlist then some true else none) truePlist 0 4096 =
      .ok none := by decide +kernel
  obtain rfl : none = r := Except.ok.inj (hnone.symm.trans hr)
  have htrailer : Trailer truePlist 0 42 :=
    ⟨by decide, by decide, by decide, by decide, by decide, by decide, by decide⟩
  exact hfinds 42 (by decide) true ⟨htrailer, by decide⟩

end DarwinVm.Dump
