import DarwinVm.Lib.Bytes

/-!
# Walking a kcdata buffer

A kcdata buffer is a chain of items, each a header of 16 bytes with a type, a size and flags, and as
many bytes as the size says, padded to a multiple of four. `walk` of `tools/oskcdata.py` reads the
items from an offset on, until the one that ends the buffer. It gives back what items encode
(`walkFrom_encode`), and of any other bytes it yields nothing that is not there (`inside_of_mem_walkFrom`).
-/

namespace DarwinVm.Dump

/-- `KCDATA_TYPE_BUFFER_END` -/
def kcdataTypeBufferEnd : ℕ := 0xF19158ED

/-- What `walk` yields for an item: its type, its size and its bytes. -/
abbrev Walked := ℕ × ℕ × Bytes

/-- The loop of `walk`, with how many items are left to the limit. The flags of an item are read too,
but nothing depends on them. -/
def walkFrom (buf : Bytes) : ℕ → ℕ → List Walked
  | 0, _ => []
  | n + 1, pos =>
    if buf.length < pos + 16 then []
    else
      let t := leNat (slice buf pos (pos + 4))
      let sz := leNat (slice buf (pos + 4) (pos + 8))
      if 2 ^ 20 < sz ∨ buf.length < pos + 16 + sz then []
      else
        (t, sz, slice buf (pos + 16) (pos + 16 + sz)) ::
          if t = kcdataTypeBufferEnd then [] else walkFrom buf n (roundUp4 (pos + 16 + sz))

/-- `walk`, with its limit. -/
def walk (buf : Bytes) (start : ℕ) : List Walked := walkFrom buf 512 start

/-! ## Items -/

/-- An item that the format can hold, with no more bytes than are walked over. -/
structure Item where
  kind : ℕ
  payload : Bytes
  flags : ℕ
  kind_lt : kind < 2 ^ 32
  payload_le : payload.length ≤ 2 ^ 20
  flags_lt : flags < 2 ^ 64

namespace Item

/-- `item(kind, payload, flags)` of the tests. -/
def encode (i : Item) : Bytes :=
  leBytes 4 i.kind ++ leBytes 4 i.payload.length ++ leBytes 8 i.flags ++ i.payload ++
    List.replicate ((4 - i.payload.length % 4) % 4) 0

/-- The type, the size and the bytes of an item. -/
def walked (i : Item) : Walked := (i.kind, i.payload.length, i.payload)

/-- The item ends the buffer. -/
def IsEnd (i : Item) : Prop := i.kind = kcdataTypeBufferEnd

instance (i : Item) : Decidable i.IsEnd := inferInstanceAs (Decidable (_ = _))

/-- The item that ends a buffer, `item(0xF19158ED)`. -/
def bufferEnd : Item :=
  ⟨kcdataTypeBufferEnd, [], 0, by decide, by decide, by decide⟩

end Item

/-- The items up to the first that ends the buffer. -/
def upToEnd : List Item → List Item
  | [] => []
  | i :: is => if i.IsEnd then [i] else i :: upToEnd is

/-- An item lies in the buffer: these are its type and its size, and its bytes. -/
structure Inside (buf : Bytes) (pos : ℕ) (w : Walked) : Prop where
  fits : pos + 16 + w.2.1 ≤ buf.length
  kind : w.1 = leNat (slice buf pos (pos + 4))
  size : w.2.1 = leNat (slice buf (pos + 4) (pos + 8))
  payload : w.2.2 = slice buf (pos + 16) (pos + 16 + w.2.1)

variable {buf rest : Bytes} {n pos : ℕ} {w : Walked} {i : Item}

/-- The bytes of an item that lies in the buffer are as many as its size says. -/
theorem Inside.length (h : Inside buf pos w) : w.2.2.length = w.2.1 := by
  rw [h.payload, length_slice]
  have := h.fits
  omega

/-- What is walked over lies in the buffer. -/
theorem inside_of_mem_walkFrom : ∀ {n pos : ℕ}, w ∈ walkFrom buf n pos → ∃ pos', Inside buf pos' w
  | 0, _, h => absurd h List.not_mem_nil
  | n + 1, pos, h => by
    rw [walkFrom] at h
    dsimp only at h
    split_ifs at h with hheader hsize hend
    · cases h
    · cases h
    · obtain rfl := List.mem_singleton.mp h
      exact ⟨pos, ⟨by dsimp only; omega, rfl, rfl, rfl⟩⟩
    · obtain rfl | h := List.mem_cons.mp h
      · exact ⟨pos, ⟨by dsimp only; omega, rfl, rfl, rfl⟩⟩
      · exact inside_of_mem_walkFrom h

/-- No more items are walked over than the limit allows. -/
theorem length_walkFrom_le (buf : Bytes) : ∀ n pos : ℕ, (walkFrom buf n pos).length ≤ n
  | 0, _ => le_rfl
  | n + 1, pos => by
    rw [walkFrom]
    dsimp only
    split_ifs
    · exact Nat.zero_le _
    · exact Nat.zero_le _
    · exact Nat.succ_le_succ (Nat.zero_le n)
    · exact Nat.succ_le_succ (length_walkFrom_le buf n _)

/-! ## Encoded items -/

/-- An item ends at a multiple of four if it starts at one. -/
theorem Item.add_length_encode (i : Item) (h : pos % 4 = 0) :
    pos + i.encode.length = roundUp4 (pos + 16 + i.payload.length) := by
  simp only [encode, List.length_append, length_leBytes, List.length_replicate, roundUp4]
  omega

/-- An item is read back where it has been written. -/
theorem Item.inside_of_isPrefix (h : i.encode <+: buf.drop pos) : Inside buf pos i.walked where
  fits := by
    have hlen := h.length_le
    simp only [encode, List.length_append, length_leBytes, List.length_drop] at hlen
    dsimp only [walked]
    omega
  kind := by
    have hkind := slice_of_isPrefix (a := []) (b := leBytes 4 i.kind)
      (c := leBytes 4 i.payload.length ++ (leBytes 8 i.flags ++ (i.payload ++
        List.replicate ((4 - i.payload.length % 4) % 4) 0)))
      (by simpa only [encode, List.nil_append, List.append_assoc] using h)
    rw [List.length_nil, Nat.add_zero, length_leBytes] at hkind
    rw [hkind, leNat_leBytes_of_lt i.kind_lt]
    rfl
  size := by
    have hsize := slice_of_isPrefix (a := leBytes 4 i.kind) (b := leBytes 4 i.payload.length)
      (c := leBytes 8 i.flags ++ (i.payload ++ List.replicate ((4 - i.payload.length % 4) % 4) 0))
      (by simpa only [encode, List.append_assoc] using h)
    have hlt : i.payload.length < 256 ^ 4 := i.payload_le.trans_lt (by decide)
    rw [length_leBytes, length_leBytes] at hsize
    rw [hsize, leNat_leBytes_of_lt hlt]
    rfl
  payload := by
    have hpayload := slice_of_isPrefix
      (a := leBytes 4 i.kind ++ leBytes 4 i.payload.length ++ leBytes 8 i.flags) (b := i.payload) h
    simp only [List.length_append, length_leBytes] at hpayload
    exact hpayload.symm

/-- One step over an item that has been written at a multiple of four. -/
theorem walkFrom_item (hpos : pos % 4 = 0) (h : i.encode <+: buf.drop pos) :
    walkFrom buf (n + 1) pos =
      i.walked :: if i.IsEnd then [] else walkFrom buf n (pos + i.encode.length) := by
  have hinside := Item.inside_of_isPrefix h
  have hfits : pos + 16 + i.payload.length ≤ buf.length := hinside.fits
  have hle := i.payload_le
  have hpayload : i.payload = slice buf (pos + 16) (pos + 16 + i.payload.length) := hinside.payload
  rw [walkFrom, if_neg (by omega), ← hinside.kind, ← hinside.size]
  dsimp only [Item.walked]
  rw [if_neg (by omega), ← i.add_length_encode hpos, ← hpayload]
  rfl

/-- Items that end with the end of the buffer are walked over up to the first that ends it. -/
theorem walkFrom_encode : ∀ (items : List Item) (n : ℕ) (before : Bytes),
    items.length ≤ n → (∃ e ∈ items, e.IsEnd) → before.length % 4 = 0 →
      walkFrom (before ++ items.flatMap Item.encode ++ rest) n before.length =
        (upToEnd items).map Item.walked
  | [], _, _, _, hend, _ => by
    obtain ⟨e, he, -⟩ := hend
    cases he
  | _ :: _, 0, _, hn, _, _ => absurd hn (Nat.not_succ_le_zero _)
  | i :: is, n + 1, before, hn, hend, hpos => by
    have hencode : i.encode <+:
        (before ++ (i :: is).flatMap Item.encode ++ rest).drop before.length := by
      rw [List.append_assoc, List.drop_left, List.flatMap_cons, List.append_assoc]
      exact List.prefix_append ..
    rw [walkFrom_item hpos hencode, upToEnd]
    by_cases hi : i.IsEnd
    · rw [if_pos hi, if_pos hi]
      rfl
    · -- The rest of the items stand after this one.
      obtain ⟨e, he, hend⟩ := hend
      have hrest : ∃ e ∈ is, e.IsEnd := by
        obtain rfl | he := List.mem_cons.mp he
        · exact absurd hend hi
        · exact ⟨e, he, hend⟩
      have hnext : (before ++ i.encode).length % 4 = 0 := by
        rw [List.length_append, i.add_length_encode hpos]
        exact roundUp4_mod _
      have ih := walkFrom_encode is n (before ++ i.encode) (Nat.le_of_succ_le_succ hn) hrest hnext
      rw [if_neg hi, if_neg hi, List.map_cons, ← ih, List.flatMap_cons, List.length_append,
        List.append_assoc before i.encode]

/-- Items that have been encoded are walked over up to the first that ends the buffer, whatever
stands before and after them; and of any bytes, from any offset on, only as many items as the limit
allows are yielded, and only bytes of the buffer, as many as the size of their item says. -/
theorem walk_correct :
    (∀ (items : List Item) (before rest : Bytes), items.length ≤ 512 →
      (∃ e, items.getLast? = some e ∧ e.IsEnd) → before.length % 4 = 0 →
      walk (before ++ items.flatMap Item.encode ++ rest) before.length =
        (upToEnd items).map Item.walked) ∧
    ∀ (buf : Bytes) (start : ℕ), (walk buf start).length ≤ 512 ∧
      ∀ w ∈ walk buf start, w.2.2.length = w.2.1 ∧ ∃ pos, Inside buf pos w := by
  constructor
  · rintro items before rest hn ⟨e, hlast, hend⟩ hpos
    exact walkFrom_encode items 512 before hn ⟨e, List.mem_of_getLast? hlast, hend⟩ hpos
  · intro buf start
    refine ⟨length_walkFrom_le buf 512 start, fun w hw => ?_⟩
    obtain ⟨pos, hinside⟩ := inside_of_mem_walkFrom hw
    exact ⟨hinside.length, pos, hinside⟩

/-- `item(0x36, b"\x95\0\0\0")` -/
def pidItem : Item := ⟨0x36, [0x95, 0, 0, 0], 0, by decide, by decide, by decide⟩

/-- Two items after four other bytes. -/
theorem walk_correct_pid : walk ([7, 7, 7, 7] ++ [pidItem, .bufferEnd].flatMap Item.encode ++ [9]) 4 =
    [pidItem.walked, Item.bufferEnd.walked] :=
  walk_correct.1 [pidItem, .bufferEnd] [7, 7, 7, 7] [9] (by decide) ⟨.bufferEnd, rfl, rfl⟩ rfl

end DarwinVm.Dump
