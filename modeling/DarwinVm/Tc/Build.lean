import DarwinVm.Tc.Module

/-!
# Building a trust cache

`make_trustcache` of `build_tc.py` sorts the lines of the hash list as texts. The kernel searches the
bytes that they spell, and `makeTrustcache_searchable` says when the module can be searched: when no
line contains white space, and the lines, which must differ in more than the case of their letters,
have the same order with and without regard to case.
-/

namespace DarwinVm.Tc

/-- A module of version 1 can be searched for the hashes of the list: its count is that of its
entries, which ascend strictly by their hash, and have the hashes that the lines spell; and `load`
accepts it. -/
def Searchable (text : Text) (out : Bytes) : Prop :=
  ∃ (uuid : Bytes) (entries : List Bytes), uuid.length = 16 ∧ entries.length < 2 ^ 32 ∧
    (∀ e ∈ entries, e.length = 22) ∧
    out = header 1 uuid entries.length ++ entries.flatten ∧
    Ascending entryHash entries ∧
    (∀ hash, hash ∈ entries.map entryHash ↔ ∃ h ∈ splitlines text, fromHex h = some hash) ∧
    ∀ path, ∃ es, load path out = .ok (1, uuid, es)

/-- A line without regard to case. -/
def lower (h : Text) : Text := h.map Char.toLower

/-- Two lines differ in more than the case of their letters, and have the same order with and without
regard to case. -/
def SameOrder (g h : Text) : Prop := lower g ≠ lower h ∧ (g < h ↔ lower g < lower h)

instance (g h : Text) : Decidable (SameOrder g h) :=
  inferInstanceAs (Decidable (lower g ≠ lower h ∧ (g < h ↔ lower g < lower h)))

/-- No line contains white space, and any two have the same order with and without regard to case. -/
def Spelled (text : Text) : Prop :=
  (∀ h ∈ splitlines text, ∀ c ∈ h, isPySpace c = false) ∧ (splitlines text).Pairwise SameOrder

instance (text : Text) : Decidable (Spelled text) :=
  inferInstanceAs (Decidable ((∀ h ∈ splitlines text, ∀ c ∈ h, isPySpace c = false) ∧
    (splitlines text).Pairwise SameOrder))

/-! ## Hexadecimal digits -/

theorem toNat_of_digitOf {c : Char} {x : ℕ} (h : digitOf 16 c = some x) :
    48 ≤ c.toNat ∧ c.toNat < 128 := by
  have hrange : ('0' ≤ c ∧ c ≤ '9') ∨ ('a' ≤ c ∧ c ≤ 'z') ∨ ('A' ≤ c ∧ c ≤ 'Z') := by
    by_contra hnot
    rw [not_or, not_or] at hnot
    obtain ⟨h9, hz, hZ⟩ := hnot
    simp only [digitOf, if_neg h9, if_neg hz, if_neg hZ, lt_irrefl, if_false] at h
    cases h
  have hle : ∀ d e : Char, d ≤ c ∧ c ≤ e → d.toNat ≤ c.toNat ∧ c.toNat ≤ e.toNat := fun _ _ h => h
  rcases hrange with h | h | h
  · have := hle _ _ h
    rw [show '0'.toNat = 48 from rfl, show '9'.toNat = 57 from rfl] at this
    omega
  · have := hle _ _ h
    rw [show 'a'.toNat = 97 from rfl, show 'z'.toNat = 122 from rfl] at this
    omega
  · have := hle _ _ h
    rw [show 'A'.toNat = 65 from rfl, show 'Z'.toNat = 90 from rfl] at this
    omega

/-- In lower case, a digit is the one that is written for its value. -/
theorem toLower_of_digitOf {c : Char} {x : ℕ} (h : digitOf 16 c = some x) :
    c.toLower = Nat.digitChar x := by
  have hsmall : ∀ n < 128, ∀ x < 16, digitOf 16 (Char.ofNat n) = some x →
      (Char.ofNat n).toLower = Nat.digitChar x := by
    decide +kernel
  have hlower := hsmall c.toNat (toNat_of_digitOf h).2 x (digitOf_lt h)
  rw [Char.ofNat_toNat] at hlower
  exact hlower h

theorem isPySpace_of_digitOf {c : Char} {x : ℕ} (h : digitOf 16 c = some x) :
    isPySpace c = false := by
  have hc := (toNat_of_digitOf h).1
  refine Bool.not_eq_true _ ▸ fun hspace => ?_
  rcases of_decide_eq_true hspace with rfl | hspace
  · exact absurd hc (by decide)
  · omega

/-- The digits are in the order of their values. -/
theorem digitChar_lt_iff : ∀ x < 16, ∀ y < 16, (Nat.digitChar x < Nat.digitChar y ↔ x < y) ∧
    (Nat.digitChar x = Nat.digitChar y ↔ x = y) := by
  decide

/-- What a text without white space spells: nothing, or the byte of two digits and what follows. -/
theorem fromHex_eq_some {g : Text} {a : Bytes} (hg : ∀ c ∈ g, isPySpace c = false)
    (h : fromHex g = some a) : (g = [] ∧ a = []) ∨ ∃ c d s x y b, g = c :: d :: s ∧
      digitOf 16 c = some x ∧ digitOf 16 d = some y ∧ fromHex s = some b ∧
        a = UInt8.ofNat (16 * x + y) :: b := by
  rcases g with _ | ⟨c, _ | ⟨d, s⟩⟩
  · exact .inl ⟨rfl, (Option.some.inj h).symm⟩
  · rw [fromHex, if_neg (by rw [hg c (List.mem_singleton_self c)]; exact Bool.false_ne_true)] at h
    cases h
  · rw [fromHex, if_neg (by rw [hg c (List.mem_cons_self ..)]; exact Bool.false_ne_true)] at h
    simp only [bind, Option.bind_eq_some_iff] at h
    obtain ⟨x, hx, y, hy, b, hb, hab⟩ := h
    exact .inr ⟨c, d, s, x, y, b, rfl, hx, hy, hb, (Option.some.inj hab).symm⟩

/-- Each byte is spelled by two characters; the others are white space. -/
theorem length_fromHex {g : Text} {a : Bytes} (h : fromHex g = some a) :
    2 * a.length + g.countP isPySpace = g.length := by
  fun_induction fromHex g generalizing a with
  | case1 =>
    obtain rfl := Option.some.inj h
    rfl
  | case2 c s hc ih =>
    have := ih h
    rw [List.countP_cons_of_pos hc, List.length_cons]
    omega
  | case3 c hc => cases h
  | case4 c hc d s ih =>
    simp only [bind, Option.bind_eq_some_iff] at h
    obtain ⟨x, hx, y, hy, b, hb, hab⟩ := h
    obtain rfl := Option.some.inj hab
    have hd := isPySpace_of_digitOf hy
    have := ih hb
    rw [List.countP_cons_of_neg hc, List.countP_cons_of_neg (by rw [hd]; exact Bool.false_ne_true),
      List.length_cons, List.length_cons, List.length_cons]
    omega

/-- Bytes are in the order of the texts that spell them, in lower case. -/
theorem fromHex_lt_iff {g h : Text} {a b : Bytes} (hg : ∀ c ∈ g, isPySpace c = false)
    (hh : ∀ c ∈ h, isPySpace c = false) (ha : fromHex g = some a) (hb : fromHex h = some b) :
    a < b ↔ lower g < lower h := by
  rcases fromHex_eq_some hg ha with ⟨rfl, rfl⟩ | ⟨c, d, s, x, y, a', rfl, hx, hy, ha', rfl⟩
  · rcases fromHex_eq_some hh hb with ⟨rfl, rfl⟩ | ⟨c', d', s', x', y', b', rfl, -, -, -, rfl⟩
    · exact iff_of_false (List.not_lt_nil _) (List.not_lt_nil _)
    · exact iff_of_true (List.nil_lt_cons _ _) (List.nil_lt_cons _ _)
  · rcases fromHex_eq_some hh hb with ⟨rfl, rfl⟩ | ⟨c', d', s', x', y', b', rfl, hx', hy', hb', rfl⟩
    · exact iff_of_false (List.not_lt_nil _) (List.not_lt_nil _)
    · have ih := fromHex_lt_iff (fun c hc => hg c (by simp [hc])) (fun c hc => hh c (by simp [hc]))
        ha' hb'
      -- The values of the digits are below 16, so that their order is that of the bytes.
      have hx₁ := digitOf_lt hx
      have hy₁ := digitOf_lt hy
      have hx₂ := digitOf_lt hx'
      have hy₂ := digitOf_lt hy'
      have hbyte : (UInt8.ofNat (16 * x + y) < UInt8.ofNat (16 * x' + y') ↔
          16 * x + y < 16 * x' + y') ∧ (UInt8.ofNat (16 * x + y) = UInt8.ofNat (16 * x' + y') ↔
            16 * x + y = 16 * x' + y') := by
        rw [UInt8.lt_iff_toNat_lt, ← UInt8.toNat_inj, UInt8.toNat_ofNat', UInt8.toNat_ofNat']
        omega
      have hfst := digitChar_lt_iff x hx₁ x' hx₂
      have hsnd := digitChar_lt_iff y hy₁ y' hy₂
      simp only [lower, List.map_cons, List.cons_lt_cons_iff, toLower_of_digitOf hx,
        toLower_of_digitOf hy, toLower_of_digitOf hx', toLower_of_digitOf hy', hbyte, hfst, hsnd]
      rw [ih, lower, lower]
      by_cases hrest : s.map Char.toLower < s'.map Char.toLower
      · simp only [hrest, and_true]
        omega
      · simp only [hrest, and_false, or_false]
        omega
termination_by g.length

/-! ## The lines and the entries -/

/-- The hash that a line spells, and the two bytes after it. -/
def entryOf (h : Text) : Bytes := (fromHex h).getD [] ++ [2] ++ [0]

/-- What `make_trustcache` writes, and when it does. -/
theorem makeTrustcache_eq_ok_iff {text : Text} {out : Bytes} :
    let hashes := (splitlines text).insertionSort (· ≤ ·)
    makeTrustcache text = .ok out ↔ (∀ h ∈ hashes, h.length = 40) ∧ hashes.length < 2 ^ 32 ∧
      (∀ h ∈ hashes, (fromHex h).isSome = true) ∧
        out = header 1 (List.replicate 16 65) hashes.length ++ (hashes.map entryOf).flatten := by
  dsimp only
  rw [makeTrustcache]
  generalize (splitlines text).insertionSort (· ≤ ·) = hashes
  have hentry : ∀ h ∈ hashes, ∀ e, makeEntry h = .ok e ↔ (fromHex h).isSome = true ∧ e = entryOf h := by
    intro h _ e
    rw [makeEntry, entryOf]
    rcases fromHex h with _ | hash
    · exact iff_of_false nofun fun h => nomatch h.1
    · exact ⟨fun h => ⟨rfl, (Except.ok.inj h).symm⟩, fun h => by rw [h.2]; rfl⟩
  have hany : (hashes.any fun h => h.length ≠ 40) = true ↔ ¬∀ h ∈ hashes, h.length = 40 := by
    simp only [List.any_eq_true, decide_eq_true_eq, ne_eq, not_forall, exists_prop]
  by_cases hlength : ∀ h ∈ hashes, h.length = 40
  · rw [if_neg (by rw [hany, not_not]; exact hlength), and_iff_right hlength]
    by_cases hcount : hashes.length < 2 ^ 32
    · rw [if_neg (not_not.mpr hcount), and_iff_right hcount]
      simp only [bind, bind_eq_ok, mapM_eq_ok_iff hentry, Except.ok.injEq]
      constructor
      · rintro ⟨_, ⟨hsome, rfl⟩, rfl⟩
        exact ⟨hsome, rfl⟩
      · rintro ⟨hsome, rfl⟩
        exact ⟨_, ⟨hsome, rfl⟩, rfl⟩
    · rw [if_pos hcount]
      exact iff_of_false nofun fun h => hcount h.1
  · rw [if_pos (hany.mpr hlength)]
    exact iff_of_false nofun fun h => hlength h.1

theorem sameOrder_symm {g h : Text} (hgh : SameOrder g h) : SameOrder h g := by
  obtain ⟨hne, hlt⟩ := hgh
  refine ⟨hne.symm, ?_⟩
  have hne' : g ≠ h := fun he => hne (congrArg lower he)
  have h₁ : h < g ↔ ¬g < h := ⟨fun h => lt_asymm h, fun h => (lt_or_gt_of_ne hne').resolve_left h⟩
  have h₂ : lower h < lower g ↔ ¬lower g < lower h :=
    ⟨fun h => lt_asymm h, fun h => (lt_or_gt_of_ne hne).resolve_left h⟩
  rw [h₁, h₂, hlt]

/-- Once the lines are sorted, any two have the same order in lower case if they ascend in it. -/
theorem pairwise_sameOrder_iff (lines : List Text) :
    lines.Pairwise SameOrder ↔
      (lines.insertionSort (· ≤ ·)).Pairwise fun g h => lower g < lower h := by
  have hperm : (lines.insertionSort (· ≤ ·)).Perm lines := List.perm_insertionSort _ lines
  have hsorted : (lines.insertionSort (· ≤ ·)).Pairwise (· ≤ ·) := List.pairwise_insertionSort _ lines
  rw [← hperm.pairwise_iff sameOrder_symm]
  constructor
  · intro h
    refine (hsorted.and h).imp fun ⟨hle, hne, hlt⟩ => ?_
    exact hlt.mp (lt_of_le_of_ne hle fun he => hne (congrArg lower he))
  · intro h
    refine (hsorted.and h).imp fun ⟨hle, hlt⟩ => ⟨hlt.ne, iff_of_true ?_ hlt⟩
    refine lt_of_le_of_ne hle fun he => ?_
    rw [he] at hlt
    exact lt_irrefl _ hlt

/-- A line of 40 characters spells 20 bytes if it has no white space, and fewer if it has. -/
theorem length_entryOf {h : Text} (hlength : h.length = 40) (hsome : (fromHex h).isSome = true) :
    (entryOf h).length ≤ 22 ∧
      ((entryOf h).length = 22 ↔ ∀ c ∈ h, isPySpace c = false) := by
  obtain ⟨a, ha⟩ := Option.isSome_iff_exists.mp hsome
  have hlen := length_fromHex ha
  have hzero : h.countP isPySpace = 0 ↔ ∀ c ∈ h, isPySpace c = false := by
    rw [List.countP_eq_zero]
    simp only [Bool.not_eq_true]
  rw [entryOf, ha, ← hzero]
  simp only [Option.getD_some, List.length_append, List.length_singleton]
  omega

/-- A header and what follows it. -/
theorem header_append_inj {uuid uuid' rest rest' : Bytes} {n n' : ℕ} (hu : uuid.length = 16)
    (hu' : uuid'.length = 16) (hn : n < 2 ^ 32) (hn' : n' < 2 ^ 32)
    (h : header 1 uuid n ++ rest = header 1 uuid' n' ++ rest') : n = n' ∧ rest = rest' := by
  obtain ⟨hheader, hrest⟩ := List.append_inj h (by rw [length_header hu, length_header hu'])
  have hfield {uuid : Bytes} (n : ℕ) (h : uuid.length = 16) :
      slice (header 1 uuid n ++ []) 20 24 = leBytes 4 n := (slice_header h).2.2
  have hcount := hfield n hu
  rw [hheader, hfield n' hu'] at hcount
  have hnum := congrArg leNat hcount
  rw [leNat_leBytes_of_lt (by omega), leNat_leBytes_of_lt (by omega)] at hnum
  exact ⟨hnum.symm, hrest⟩

/-- The hash of an entry of full length is what the line spells. -/
theorem fromHex_eq_entryHash {h : Text} (hsome : (fromHex h).isSome = true)
    (hlength : (entryOf h).length = 22) : fromHex h = some (entryHash (entryOf h)) := by
  obtain ⟨a, ha⟩ := Option.isSome_iff_exists.mp hsome
  rw [entryOf, ha, Option.getD_some, List.length_append, List.length_append] at hlength
  have h20 : a.length = 20 := Nat.add_right_cancel (m := 2) hlength
  rw [entryHash, entryOf, ha, Option.getD_some, List.append_assoc, ← h20, List.take_left]

/-- Entries of full length ascend if the lines ascend in lower case. -/
theorem ascending_entryOf_iff {hashes : List Text} (hsome : ∀ h ∈ hashes, (fromHex h).isSome = true)
    (hlength : ∀ h ∈ hashes, (entryOf h).length = 22)
    (hspace : ∀ h ∈ hashes, ∀ c ∈ h, isPySpace c = false) :
    Ascending entryHash (hashes.map entryOf) ↔ hashes.Pairwise fun g h => lower g < lower h := by
  have hiff : ∀ g ∈ hashes, ∀ h ∈ hashes,
      (entryHash (entryOf g) < entryHash (entryOf h) ↔ lower g < lower h) := fun g hg h hh =>
    fromHex_lt_iff (hspace g hg) (hspace h hh) (fromHex_eq_entryHash (hsome g hg) (hlength g hg))
      (fromHex_eq_entryHash (hsome h hh) (hlength h hh))
  rw [Ascending, List.pairwise_map]
  exact ⟨fun h => h.imp_of_mem fun ha hb => (hiff _ ha _ hb).mp,
    fun h => h.imp_of_mem fun ha hb => (hiff _ ha _ hb).mpr⟩

/-- The module that `make_trustcache` writes for a hash list can be searched exactly if no line contains
white space, and any two differ in more than the case of their letters and have the same order with and
without regard to case. -/
theorem makeTrustcache_searchable {text : Text} {out : Bytes} (h : makeTrustcache text = .ok out) :
    Searchable text out ↔ Spelled text := by
  have h := makeTrustcache_eq_ok_iff.mp h
  have hperm : ((splitlines text).insertionSort (· ≤ ·)).Perm (splitlines text) :=
    List.perm_insertionSort _ _
  rw [Spelled, pairwise_sameOrder_iff]
  simp only [Searchable, ← hperm.mem_iff]
  generalize (splitlines text).insertionSort (· ≤ ·) = hashes at h ⊢
  obtain ⟨hlength, hcount, hsome, rfl⟩ := h
  have huuid₀ : (List.replicate 16 65 : Bytes).length = 16 := List.length_replicate
  constructor
  · rintro ⟨uuid, entries, huuid, hn, heach, hbytes, hascending, -, -⟩
    obtain ⟨hnum, hflatten⟩ := header_append_inj huuid₀ huuid hcount hn hbytes
    -- The entries fill the place of as many of 22 bytes, so none of them is shorter.
    have hfull : ∀ e ∈ hashes.map entryOf, e.length = 22 := by
      refine length_eq_of_flatten (fun e he => ?_) ?_
      · obtain ⟨g, hg, rfl⟩ := List.mem_map.mp he
        exact (length_entryOf (hlength g hg) (hsome g hg)).1
      · rw [hflatten, List.length_flatten, List.map_congr_left heach, List.map_const',
          List.sum_replicate_nat, List.length_map, hnum]
    have hentries : hashes.map entryOf = entries :=
      flatten_inj hfull heach (by rw [List.length_map, hnum]) hflatten
    have hfull' : ∀ g ∈ hashes, (entryOf g).length = 22 := fun g hg =>
      hfull _ (List.mem_map_of_mem hg)
    have hspace : ∀ g ∈ hashes, ∀ c ∈ g, isPySpace c = false := fun g hg =>
      (length_entryOf (hlength g hg) (hsome g hg)).2.mp (hfull' g hg)
    rw [← hentries, ascending_entryOf_iff hsome hfull' hspace] at hascending
    exact ⟨hspace, hascending⟩
  · rintro ⟨hspace, hascending⟩
    have hfull : ∀ g ∈ hashes, (entryOf g).length = 22 := fun g hg =>
      (length_entryOf (hlength g hg) (hsome g hg)).2.mpr (hspace g hg)
    have hfull' : ∀ e ∈ hashes.map entryOf, e.length = 22 := fun e he => by
      obtain ⟨g, hg, rfl⟩ := List.mem_map.mp he
      exact hfull g hg
    have hlen : (hashes.map entryOf).length = hashes.length := List.length_map _
    rw [← hlen] at hcount ⊢
    refine ⟨_, hashes.map entryOf, huuid₀, hcount, hfull', rfl,
      (ascending_entryOf_iff hsome hfull hspace).mpr hascending, fun hash => ?_, fun path => ?_⟩
    · rw [List.map_map, List.mem_map]
      refine exists_congr fun g => and_congr_right fun hg => ?_
      rw [fromHex_eq_entryHash (hsome g hg) (hfull g hg), Option.some.injEq, Function.comp_apply]
    · exact ⟨_, load_eq_ok_iff.mpr ⟨_, ⟨huuid₀, hcount, .inr ⟨rfl, hfull', rfl⟩⟩, rfl⟩⟩

/-- Two hashes in lower case, out of order. -/
def lowerList : Text := List.replicate 40 'c' ++ '\n' :: List.replicate 40 '1'

/-- The list in lower case makes a module that can be searched. -/
theorem makeTrustcache_searchable_lowerList : ∃ out, makeTrustcache lowerList = .ok out ∧
    Searchable lowerList out := by
  have hok : (makeTrustcache lowerList).toOption.isSome = true := by decide +kernel
  have hspelled : Spelled lowerList := by decide +kernel
  cases hout : makeTrustcache lowerList with
  | error e => rw [hout] at hok; cases hok
  | ok out => exact ⟨out, rfl, (makeTrustcache_searchable hout).mpr hspelled⟩

/-- Two hashes, one of which is in upper case. -/
def mixedList : Text := List.replicate 40 'b' ++ '\n' :: List.replicate 40 'C'

/-- As texts, upper case comes before lower case, so the greater hash is written first. -/
theorem not_searchable_mixedList :
    ¬∀ text out, makeTrustcache text = .ok out → Searchable text out := by
  intro h
  have hout : makeTrustcache mixedList = .ok (header 1 (List.replicate 16 65) 2 ++
      [List.replicate 20 0xCC ++ [2, 0], List.replicate 20 0xBB ++ [2, 0]].flatten) := by
    decide +kernel
  obtain ⟨uuid, entries, huuid, hn, heach, hbytes, hascending, -, -⟩ := h _ _ hout
  obtain ⟨hnum, hflatten⟩ := header_append_inj List.length_replicate huuid (by decide) hn hbytes
  have heach' : ∀ e ∈ [List.replicate 20 0xCC ++ [2, 0], List.replicate 20 0xBB ++ [2, 0]],
      (e : Bytes).length = 22 := by decide
  have hentries := flatten_inj heach' heach hnum hflatten
  rw [← hentries] at hascending
  revert hascending
  unfold Ascending
  decide

end DarwinVm.Tc
