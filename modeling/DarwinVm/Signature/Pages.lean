import DarwinVm.Signature.Payload

/-!
# Edits and pages that have been checked

What is known when `cachePayload` returns: the edits are those of the specification, lie apart and each
in one page (`reviewedEdits_ok`), the pages that are edited are whole and have their hashes in the code
directory, and the loop over them writes the new hashes and nothing else (`pages_ok`). Editing a page
and changing the code directory are both writing patches (`editPage_eq`, `slotPatch`).
-/

namespace DarwinVm.Signature.Payload

/-! ## Edits -/

/-- The specification has an edit with these bytes. -/
def Specifies (spec : Json) (e : Edit) : Prop :=
  ∃ v items, getItem spec "edits".toList = .ok v ∧ iter v = .ok items ∧
    ∃ item ∈ items, readEdit item = .ok (some (e.offset : ℤ), e.before, e.after)

/-- An edit that has been checked. -/
structure Edit.Valid (file : Bytes) (e : Edit) : Prop where
  start : 4096 ≤ e.offset
  ne_nil : e.before ≠ []
  length : e.after.length = e.before.length
  page : (e.offset + e.before.length - 1) / pageSize = e.offset / pageSize
  fits : e.offset + e.before.length ≤ file.length

variable {file : Bytes} {spec : Json} {edits : List Edit} {e : Edit} {page : ℕ}

/-- The bytes that an edit writes. -/
def Edit.patch (e : Edit) : Patch := ⟨e.offset, e.after⟩

theorem Edit.Valid.stop (h : e.Valid file) : e.patch.stop = e.offset + e.before.length := by
  rw [Patch.stop, Edit.patch, h.length]

/-- An edit lies in its page. -/
theorem Edit.Valid.in_page (h : e.Valid file) :
    e.offset / pageSize * pageSize ≤ e.offset ∧
      e.patch.stop ≤ e.offset / pageSize * pageSize + pageSize := by
  have hpos := List.length_pos_iff.mpr h.ne_nil
  have hpage := h.page
  have hstop := h.stop
  rw [pageSize] at hpage ⊢
  omega

theorem Edit.Valid.stop_le (h : e.Valid file) : e.patch.stop ≤ file.length := by
  rw [h.stop]
  exact h.fits

/-- What has been checked of an edit. -/
theorem checkEdit_ok {item : Json} (h : checkEdit file item = .ok e) :
    readEdit item = .ok (some (e.offset : ℤ), e.before, e.after) ∧ e.Valid file := by
  obtain ⟨⟨offset, before, after⟩, hread, h⟩ := bind_eq_ok.mp h
  dsimp only at h
  match offset with
  | none => cases h
  | some offset =>
    dsimp only at h
    split_ifs at h with hstart hpage hbefore hsame
    rw [not_or, not_or, not_not] at hstart
    rw [not_or, not_not] at hpage
    rw [not_not] at hbefore
    obtain rfl := Except.ok.inj h
    obtain ⟨n, rfl⟩ : ∃ n : ℕ, offset = n := ⟨offset.toNat, by omega⟩
    rw [Int.toNat_natCast] at hpage hbefore ⊢
    have hpos := List.length_pos_iff.mpr hstart.2.1
    have hlen := congrArg List.length hbefore
    rw [length_slice] at hlen
    have hfits : n + before.length ≤ file.length := by omega
    have hn : 4096 ≤ n := by omega
    exact ⟨hread, hn, hstart.2.1, hstart.2.2.symm, hpage.2.symm, hfits⟩

/-- Edits that do not go on where the next one starts lie apart. -/
theorem pairwise_of_not_overlapping : ∀ {edits : List Edit}, overlapping edits = false →
    edits.Pairwise fun l r => l.offset + l.before.length ≤ r.offset
  | [], _ => List.Pairwise.nil
  | [_], _ => List.pairwise_singleton _ _
  | a :: b :: edits, h => by
    have hcons : overlapping (a :: b :: edits) =
        (decide (b.offset < a.offset + a.before.length) || overlapping (b :: edits)) := rfl
    rw [hcons, Bool.or_eq_false_iff, decide_eq_false_iff_not] at h
    have hrest := pairwise_of_not_overlapping h.2
    refine List.Pairwise.cons (fun x hx => ?_) hrest
    obtain rfl | hx := List.mem_cons.mp hx
    · omega
    · have := (List.pairwise_cons.mp hrest).1 x hx
      omega

/-- What has been checked of all edits: they are those of the specification, in their order. -/
structure Reviewed (spec : Json) (file : Bytes) (edits : List Edit) : Prop where
  ne_nil : edits ≠ []
  mem : ∀ e, e ∈ edits ↔ Specifies spec e
  valid : ∀ e ∈ edits, e.Valid file
  apart : edits.Pairwise fun l r => l.offset + l.before.length ≤ r.offset

theorem reviewedEdits_ok (h : reviewedEdits spec file = .ok edits) : Reviewed spec file edits := by
  obtain ⟨_, -, h⟩ := bind_eq_ok.mp h
  obtain ⟨_, -, h⟩ := bind_eq_ok.mp h
  obtain ⟨v, hv, h⟩ := bind_eq_ok.mp h
  obtain ⟨items, hitems, h⟩ := bind_eq_ok.mp h
  obtain ⟨checked, hchecked, h⟩ := bind_eq_ok.mp h
  split_ifs at h with hcount hover
  obtain rfl := Except.ok.inj h
  have hperm : (sortEdits checked).Perm checked := perm_sortByKey _
  obtain ⟨hall, hfrom⟩ := mem_of_mapM hchecked
  refine ⟨fun hnil => ?_, fun e => ?_, fun e he => ?_, ?_⟩
  · rw [hnil] at hperm
    exact hcount (Or.inl hperm.symm.eq_nil)
  · rw [hperm.mem_iff]
    constructor
    · intro he
      obtain ⟨item, hitem, hcheck⟩ := hfrom e he
      exact ⟨v, items, hv, hitems, item, hitem, (checkEdit_ok hcheck).1⟩
    · rintro ⟨v', items', hv', hitems', item, hitem, hread⟩
      obtain rfl := Except.ok.inj (hv.symm.trans hv')
      obtain rfl := Except.ok.inj (hitems.symm.trans hitems')
      obtain ⟨c, hc, hcheck⟩ := hall item hitem
      have heq := Except.ok.inj ((checkEdit_ok hcheck).1.symm.trans hread)
      rw [Prod.mk.injEq, Prod.mk.injEq, Option.some.injEq, Nat.cast_inj] at heq
      obtain ⟨ho, hb, ha⟩ := heq
      have hce : c = e := by
        cases c
        cases e
        congr
      rwa [← hce]
  · obtain ⟨item, -, hcheck⟩ := hfrom e (hperm.mem_iff.mp he)
    exact (checkEdit_ok hcheck).2
  · exact pairwise_of_not_overlapping (Bool.eq_false_iff.mpr hover)

/-- Editing a page is writing the patches of its edits. -/
theorem editPage_eq : ∀ {edits : List Edit}, (∀ e ∈ edits, e.after.length = e.before.length) →
    ∀ before, editPage edits page before = Patch.writeAll
      ((edits.filter fun e => e.offset / pageSize = page).map
        fun e => ⟨e.offset % pageSize, e.after⟩) before
  | [], _, _ => rfl
  | e :: edits, h, before => by
    rw [List.forall_mem_cons] at h
    have ih := editPage_eq h.2
    rw [editPage, List.foldl_cons, List.filter_cons]
    by_cases hpage : e.offset / pageSize = page
    · rw [if_pos hpage, if_pos (decide_eq_true hpage), List.map_cons, Patch.writeAll_cons, ← ih,
        editPage, Patch.write, Patch.stop, h.1]
    · rw [if_neg hpage, if_neg (by simpa using hpage), ← ih, editPage]

/-- The pages that are edited. -/
theorem mem_editedPages : page ∈ editedPages edits ↔ ∃ e ∈ edits, e.offset / pageSize = page := by
  rw [editedPages, (perm_sortByKey _).mem_iff, List.mem_dedup, List.mem_map]

theorem nodup_editedPages (edits : List Edit) : (editedPages edits).Nodup :=
  (perm_sortByKey _).nodup_iff.mpr (List.nodup_dedup _)

/-! ## The code directory -/

/-- `parse_code_directory` raises what it raises. -/
theorem parse_eq_ok_iff {s : Bytes} {n : ℤ} {r : CodeDirectory} :
    parse s page n = .ok r ↔ parseCodeDirectory s page n = .ok r := by
  unfold parse
  cases parseCodeDirectory s page n with
  | error e =>
    constructor
    · intro h
      cases h
    · intro h
      cases h
  | ok a => exact ⟨fun h => congrArg _ (Except.ok.inj h), fun h => congrArg _ (Except.ok.inj h)⟩

/-- A code directory that covers some code covers less of it. -/
theorem parse_required {s : Bytes} {n : ℕ} {r : CodeDirectory}
    (h : parseCodeDirectory s page n = .ok r) : parseCodeDirectory s page 0 = .ok r := by
  obtain ⟨super, hsuper, h⟩ := bind_eq_ok.mp h
  obtain ⟨cd_offset, hslot, h⟩ := bind_eq_ok.mp h
  refine bind_eq_ok.mpr ⟨super, hsuper, bind_eq_ok.mpr ⟨cd_offset, hslot, ?_⟩⟩
  unfold parseDirectory at h ⊢
  split_ifs at h ⊢ with h1 h2
  obtain ⟨a, ha, h⟩ := bind_eq_ok.mp h
  refine bind_eq_ok.mpr ⟨a, ha, ?_⟩
  split_ifs at h with h3 h4 h5 h6 h7 h8
  rw [if_neg h3, if_neg h4, if_neg h5, if_neg (by omega), if_neg h7, if_neg h8]
  exact h

/-- Of the page only the place of its hash depends. -/
theorem parse_pages {s : Bytes} {page page' : ℕ} {n n' : ℤ} {r r' : CodeDirectory}
    (h : parseCodeDirectory s page n = .ok r) (h' : parseCodeDirectory s page' n' = .ok r') :
    r'.cd = r.cd ∧ r'.cd_offset = r.cd_offset ∧
      r.slot_offset = (headerAt s r.cd_offset).hash_offset + page * 32 ∧
      r'.slot_offset = (headerAt s r.cd_offset).hash_offset + page' * 32 := by
  obtain ⟨⟨slots, hsuper, hoffset⟩, hcd, hslot, -⟩ := parseCodeDirectory_ok h
  obtain ⟨⟨slots', hsuper', hoffset'⟩, hcd', hslot', -⟩ := parseCodeDirectory_ok h'
  have hslots : slots' = slots := by
    rw [hsuper] at hsuper'
    exact (congrArg (fun p => p.2.2) (Except.ok.inj hsuper')).symm
  have hsame : r'.cd_offset = r.cd_offset := by
    rw [hslots, hoffset] at hoffset'
    exact (Except.ok.inj hoffset').symm
  rw [hsame] at hcd' hslot'
  exact ⟨hcd'.trans hcd.symm, hsame, hslot, hslot'⟩

/-! ## The loop over the pages -/

section Loop

variable (sha256 : Bytes → Digest) (cache : String) (file : Bytes) (edits : List Edit)
  (d : CodeDirectory)

/-- The bytes of a page of the file. -/
def pageOf (page : ℕ) : Bytes := slice file (page * pageSize) (page * pageSize + pageSize)

/-- Where the hash of a page stands in the code directory. -/
def slotOf (page : ℕ) : ℕ := (headerAt (signatureOf file) d.cd_offset).hash_offset + page * 32

/-- The new hash of a page, in the code directory. -/
def slotPatch (page : ℕ) : Patch :=
  ⟨slotOf file d page, (sha256 (editPage edits page (pageOf file page))).1⟩

/-- The regions of a page. -/
def pageRegions (page : ℕ) : List Region :=
  [⟨page * pageSize, pageOf file page, editPage edits page (pageOf file page)⟩,
    ⟨signatureOffset file + d.cd_offset + slotOf file d page, (sha256 (pageOf file page)).1,
      (sha256 (editPage edits page (pageOf file page))).1⟩]

/-- What has been checked of a page: it is whole, and its hash stands in the code directory. -/
structure Checked (cd : Bytes) (page : ℕ) : Prop where
  whole : (pageOf file page).length = pageSize
  parsed : ∃ r, parseCodeDirectory (signatureOf file) page 0 = .ok r
  hash : slice cd (slotOf file d page) (slotOf file d page + 32) = (sha256 (pageOf file page)).1

variable {sha256 cache file edits d} {cd cd' : Bytes} {regions regions' : List Region}

/-- The hash of a page that is parsed lies in the code directory, after its header. -/
theorem slot_spec (hd : parseCodeDirectory (signatureOf file) 0 0 = .ok d) {r : CodeDirectory}
    (hr : parseCodeDirectory (signatureOf file) page 0 = .ok r) :
    r.slot_offset = slotOf file d page ∧ r.cd_offset = d.cd_offset ∧ 44 ≤ slotOf file d page ∧
      slotOf file d page + 32 ≤ d.cd.length := by
  obtain ⟨hcd, hoffset, -, hslot⟩ := parse_pages hd hr
  obtain ⟨-, -, -, hbounds⟩ := parseCodeDirectory_ok hr
  have hheader := hbounds.header
  have hfits := hbounds.slot
  rw [codedirectoryHeaderSize, hslot] at hheader
  rw [hslot, hcd] at hfits
  exact ⟨hslot, hoffset, hheader, hfits⟩

theorem slotPatch_stop : (slotPatch sha256 file edits d page).stop = slotOf file d page + 32 := by
  rw [Patch.stop, slotPatch, (sha256 _).2]

/-- The hashes of two pages lie apart. -/
theorem slotPatch_apart {page' : ℕ} (hne : page ≠ page') :
    (slotPatch sha256 file edits d page).Apart (slotPatch sha256 file edits d page') := by
  rw [Patch.Apart, slotPatch_stop, slotPatch_stop]
  simp only [slotPatch, slotOf]
  omega

/-- What one page does. -/
theorem pageStep_ok (hd : parseCodeDirectory (signatureOf file) 0 0 = .ok d)
    (h : pageStep sha256 cache file d.cd_offset edits (cd, regions) page = .ok (cd', regions')) :
    Checked sha256 file d cd page ∧ cd' = (slotPatch sha256 file edits d page).write cd ∧
      regions' = regions ++ pageRegions sha256 file edits d page := by
  obtain ⟨r, hr, h⟩ := bind_eq_ok.mp h
  rw [parse_eq_ok_iff] at hr
  obtain ⟨hslot, -, -, -⟩ := slot_spec hd hr
  dsimp only at h
  rw [hslot] at h
  split_ifs at h with hcheck
  rw [not_or, not_not, not_not] at hcheck
  obtain ⟨hcd, hregions⟩ := Prod.mk.inj (Except.ok.inj h)
  refine ⟨⟨hcheck.1, ⟨r, hr⟩, hcheck.2.symm⟩, ?_, ?_⟩
  · rw [← hcd, Patch.write, slotPatch_stop]
    rfl
  · rw [← hregions, ← hcheck.2]
    rfl

/-- What the loop does. -/
theorem pages_ok (hd : parseCodeDirectory (signatureOf file) 0 0 = .ok d) : ∀ {pages : List ℕ}
    {cd : Bytes} {regions : List Region}, pages.Nodup → cd.length = d.cd.length →
    pages.foldlM (pageStep sha256 cache file d.cd_offset edits) (cd, regions) =
      .ok (cd', regions') →
    (∀ page ∈ pages, Checked sha256 file d cd page) ∧
      cd' = Patch.writeAll (pages.map (slotPatch sha256 file edits d)) cd ∧
      regions' = regions ++ pages.flatMap (pageRegions sha256 file edits d)
  | [], cd, regions, _, _, h => by
    obtain ⟨rfl, rfl⟩ := Prod.mk.inj (Except.ok.inj h)
    exact ⟨List.forall_mem_nil _, rfl, (List.append_nil _).symm⟩
  | page :: pages, cd, regions, hnodup, hlen, h => by
    rw [List.nodup_cons] at hnodup
    rw [List.foldlM_cons] at h
    obtain ⟨⟨cd₁, regions₁⟩, hstep, h⟩ := bind_eq_ok.mp h
    obtain ⟨hchecked, rfl, rfl⟩ := pageStep_ok hd hstep
    obtain ⟨r, hr⟩ := hchecked.parsed
    obtain ⟨-, -, -, hfits⟩ := slot_spec hd hr
    have hstop : (slotPatch sha256 file edits d page).stop ≤ cd.length := by
      rw [slotPatch_stop, hlen]
      exact hfits
    have hlen₁ := Patch.length_write hstop
    obtain ⟨hrest, hcd, hregions⟩ := pages_ok hd hnodup.2 (hlen₁.trans hlen) h
    refine ⟨List.forall_mem_cons.mpr ⟨hchecked, fun page' hpage' => ?_⟩, hcd, ?_⟩
    · -- The hash of a later page has not been changed.
      have hne : page ≠ page' := fun heq => hnodup.1 (heq ▸ hpage')
      have hapart : (slotPatch sha256 file edits d page).Apart
        (slotPatch sha256 file edits d page') := slotPatch_apart hne
      rw [Patch.Apart, slotPatch_stop, slotPatch_stop] at hapart
      have hold := (hrest page' hpage').hash
      rw [Patch.slice_write hstop (by rw [slotPatch_stop]; exact hapart)] at hold
      exact ⟨(hrest page' hpage').whole, (hrest page' hpage').parsed, hold⟩
    · rw [hregions, List.flatMap_cons, List.append_assoc]

end Loop

end DarwinVm.Signature.Payload
