import DarwinVm.Signature.Pages

/-!
# The file that the payload makes

The edits and the new hashes of the edited pages lie apart (`Accepted.pairwise_patches`), so that one
file holds all of them (`target`). Each region of the payload holds what this file holds there, and
all that changes lies in a region. So it is this file that the regions make, in whichever order they
are written (`Accepted.writeAll_regions`) and although the header and the first page overlap, and what
`cachePayload_patches` says of it are facts about the patches.
-/

namespace DarwinVm.Signature.Payload

/-- What has been checked when a payload is returned. -/
structure Returned (sha256 : Bytes → Digest) (spec : Json) (file : Bytes) (edits : List Edit)
    (d : CodeDirectory) : Prop where
  header : (headerOf file).length = 4096
  bounds : signatureOffset file + signatureSize file ≤ file.length
  reviewed : Reviewed spec file edits
  parsed : parseCodeDirectory (signatureOf file) 0 0 = .ok d
  checked : ∀ page ∈ editedPages edits, Checked sha256 file d d.cd page

/-- A payload is returned for a file whose signature comes after the edited pages. -/
structure Accepted (sha256 : Bytes → Digest) (spec : Json) (file : Bytes) (edits : List Edit)
    (d : CodeDirectory) : Prop extends Returned sha256 spec file edits d where
  after : ∀ page ∈ editedPages edits, (page + 1) * pageSize ≤ signatureOffset file

/-- The hash of a page stands at an offset of the file, in the code directory of its signature. -/
def IsSlot (file : Bytes) (page pos : ℕ) : Prop :=
  ∃ r, parseCodeDirectory (signatureOf file) page 0 = .ok r ∧
    pos = signatureOffset file + r.cd_offset + r.slot_offset

section Target

variable (sha256 : Bytes → Digest) (file : Bytes) (edits : List Edit) (d : CodeDirectory)

/-- The new hashes, in the code directory. -/
def slotPatches : List Patch := (editedPages edits).map (slotPatch sha256 file edits d)

/-- All that is to change in the file. -/
def patches : List Patch :=
  edits.map Edit.patch ++
    (slotPatches sha256 file edits d).map (Patch.shift (signatureOffset file + d.cd_offset))

/-- What the file is to become. -/
def target : Bytes := Patch.writeAll (patches sha256 file edits d) file

/-- The regions of the payload. -/
def regionsOf : List Region :=
  ⟨0, headerOf file, headerOf file⟩ ::
    (editedPages edits).flatMap (pageRegions sha256 file edits d)

/-- The bytes that a region writes. -/
def Region.patch (r : Region) : Patch := ⟨r.offset, r.after⟩

variable {sha256 file edits d} {cache : String} {spec : Json} {page : ℕ} {p q : Patch}

/-- What has been checked, and what is returned. -/
theorem cachePayload_ok {regions : List Region} {cdhash : Bytes}
    (h : cachePayload sha256 cache file spec = .ok (regions, cdhash)) :
    ∃ edits d, Returned sha256 spec file edits d ∧ regions = regionsOf sha256 file edits d ∧
      cdhash = (hexdigest sha256 (Patch.writeAll (slotPatches sha256 file edits d) d.cd)).take 40 := by
  unfold cachePayload at h
  dsimp only at h
  split_ifs at h with hheader hbounds
  rw [not_or, not_not] at hheader
  rw [not_or, not_lt, not_lt] at hbounds
  obtain ⟨edits, hedits, h⟩ := bind_eq_ok.mp h
  obtain ⟨d, hd, h⟩ := bind_eq_ok.mp h
  obtain ⟨⟨cd, regions'⟩, hpages, h⟩ := bind_eq_ok.mp h
  obtain ⟨rfl, rfl⟩ := Prod.mk.inj (Except.ok.inj h)
  have hreviewed := reviewedEdits_ok hedits
  have hparsed := parse_required (parse_eq_ok_iff.mp hd)
  obtain ⟨hchecked, rfl, rfl⟩ := pages_ok hparsed (nodup_editedPages edits) rfl hpages
  exact ⟨edits, d, ⟨hheader.1, hbounds.2, hreviewed, hparsed, hchecked⟩, rfl, rfl⟩

/-- What is a region: the header, an edited page or its hash. -/
theorem mem_regionsOf {r : Region} : r ∈ regionsOf sha256 file edits d ↔
    r = ⟨0, headerOf file, headerOf file⟩ ∨ ∃ page ∈ editedPages edits,
      r = ⟨page * pageSize, pageOf file page, editPage edits page (pageOf file page)⟩ ∨
      r = ⟨signatureOffset file + d.cd_offset + slotOf file d page, (sha256 (pageOf file page)).1,
        (sha256 (editPage edits page (pageOf file page))).1⟩ := by
  rw [regionsOf, List.mem_cons, List.mem_flatMap]
  simp only [pageRegions, List.mem_cons, List.not_mem_nil, or_false]

/-- What is a patch: an edit or a new hash. -/
theorem mem_patches : p ∈ patches sha256 file edits d ↔ (∃ e ∈ edits, e.patch = p) ∨
    ∃ page ∈ editedPages edits,
      (slotPatch sha256 file edits d page).shift (signatureOffset file + d.cd_offset) = p := by
  rw [patches, List.mem_append, List.mem_map, slotPatches, List.map_map, List.mem_map]
  rfl

/-- Inside of its page an edit stands where it stands in the file. -/
theorem Edit.shift_patch (e : Edit) : (⟨e.offset % pageSize, e.after⟩ : Patch).shift
    (e.offset / pageSize * pageSize) = e.patch := by
  rw [Patch.shift, Nat.div_add_mod']
  rfl

/-- An edit changes bytes of its page only. -/
theorem Edit.Valid.page_of_covers {e : Edit} {k : ℕ} (he : e.Valid file) (hcovers : e.patch.Covers k)
    (hk : page * pageSize ≤ k) (hlt : k < page * pageSize + pageSize) :
    e.offset / pageSize = page := by
  obtain ⟨hstart, hstop⟩ := he.in_page
  obtain ⟨hfrom, hto⟩ := hcovers
  rw [Edit.patch] at hfrom
  dsimp only at hfrom
  rw [pageSize] at hk hlt hstart hstop ⊢
  omega

namespace Returned

variable (h : Returned sha256 spec file edits d)

include h

/-- The signature lies inside of the file. -/
theorem length_signature : (signatureOf file).length = signatureSize file := by
  have := h.bounds
  rw [signatureOf, length_slice]
  omega

/-- The code directory lies inside of the file. -/
theorem directory_le : signatureOffset file + d.cd_offset + d.cd.length ≤ file.length := by
  obtain ⟨-, -, -, hbounds⟩ := parseCodeDirectory_ok h.parsed
  have hdirectory := hbounds.directory
  have hsuperblob := hbounds.superblob
  have hsize := h.length_signature
  have := h.bounds
  omega

/-- The code directory is a part of the file. -/
theorem slice_directory : slice file (signatureOffset file + d.cd_offset)
    (signatureOffset file + d.cd_offset + d.cd.length) = d.cd := by
  obtain ⟨-, -, -, hbounds⟩ := parseCodeDirectory_ok h.parsed
  have hdirectory := hbounds.directory
  have hsuperblob := hbounds.superblob
  have hsize := h.length_signature
  rw [hbounds.cd, length_slice]
  conv_rhs => rw [signatureOf, slice_slice (by omega)]
  congr 1
  omega

/-- The hash of an edited page lies in the code directory, after its header. -/
theorem slot_le (hpage : page ∈ editedPages edits) :
    44 ≤ slotOf file d page ∧ slotOf file d page + 32 ≤ d.cd.length := by
  obtain ⟨r, hr⟩ := (h.checked page hpage).parsed
  obtain ⟨-, -, hheader, hfits⟩ := slot_spec h.parsed hr
  exact ⟨hheader, hfits⟩

/-- The patches lie inside of the file. -/
theorem stop_le (hp : p ∈ patches sha256 file edits d) : p.stop ≤ file.length := by
  obtain ⟨e, he, rfl⟩ | ⟨page, hpage, rfl⟩ := mem_patches.mp hp
  · exact (h.reviewed.valid e he).stop_le
  · have hslot := h.slot_le hpage
    have := h.directory_le
    rw [Patch.stop_shift, slotPatch_stop]
    omega

/-- An edited page is as long as it was. -/
theorem length_page (hpage : page ∈ editedPages edits) :
    (editPage edits page (pageOf file page)).length = pageSize := by
  have hwhole := (h.checked page hpage).whole
  rw [editPage_eq fun e he => (h.reviewed.valid e he).length, Patch.length_writeAll, hwhole]
  intro p hp
  obtain ⟨e, he, rfl⟩ := List.mem_map.mp hp
  obtain ⟨hmem, hin⟩ := List.mem_filter.mp he
  obtain rfl := of_decide_eq_true hin
  have hstop := (h.reviewed.valid e hmem).in_page.2
  rw [← e.shift_patch, Patch.stop_shift] at hstop
  rw [hwhole]
  omega

/-- A region has the bytes of the file, and as many that replace them. -/
theorem before_regions {r : Region} (hr : r ∈ regionsOf sha256 file edits d) :
    slice file r.offset (r.offset + r.before.length) = r.before ∧
      r.after.length = r.before.length := by
  obtain rfl | ⟨page, hpage, rfl | rfl⟩ := mem_regionsOf.mp hr
  · dsimp only
    rw [Nat.zero_add, h.header]
    exact ⟨rfl, rfl⟩
  · dsimp only
    rw [h.length_page hpage, (h.checked page hpage).whole]
    exact ⟨rfl, rfl⟩
  · have hslot := h.slot_le hpage
    dsimp only
    rw [(sha256 _).2, (sha256 _).2, ← (h.checked page hpage).hash, ← h.slice_directory,
      slice_slice (by omega), Nat.add_assoc (signatureOffset file + d.cd_offset)]
    exact ⟨rfl, rfl⟩

/-- A region is not empty. -/
theorem before_ne_nil {r : Region} (hr : r ∈ regionsOf sha256 file edits d) : r.before ≠ [] := by
  refine List.ne_nil_of_length_pos ?_
  obtain rfl | ⟨page, hpage, rfl | rfl⟩ := mem_regionsOf.mp hr
  · rw [h.header]
    decide
  · rw [(h.checked page hpage).whole]
    decide
  · rw [(sha256 _).2]
    decide

end Returned

namespace Accepted

variable (h : Accepted sha256 spec file edits d)

include h

/-- An edit lies after the header and before the signature. -/
theorem edit_le {e : Edit} (he : e ∈ edits) :
    4096 ≤ e.patch.offset ∧ e.patch.stop ≤ signatureOffset file := by
  have hvalid := h.reviewed.valid e he
  have hafter := h.after _ (mem_editedPages.mpr ⟨e, he, rfl⟩)
  have hpage := hvalid.in_page.2
  have hstart : 4096 ≤ e.patch.offset := hvalid.start
  rw [Nat.add_mul, Nat.one_mul] at hafter
  omega

/-- The signature comes after the header. -/
theorem signature_after : 4096 ≤ signatureOffset file := by
  obtain ⟨e, he⟩ := List.exists_mem_of_ne_nil _ h.reviewed.ne_nil
  have hedit := h.edit_le he
  have hle : e.patch.offset ≤ e.patch.stop := Nat.le_add_right ..
  omega

/-- The patches lie after the header, and those in the signature after the header of the code
directory. -/
theorem patch_after (hp : p ∈ patches sha256 file edits d) : 4096 ≤ p.offset ∧
    (p.stop ≤ signatureOffset file ∨ signatureOffset file + d.cd_offset + 44 ≤ p.offset) := by
  obtain ⟨e, he, rfl⟩ | ⟨page, hpage, rfl⟩ := mem_patches.mp hp
  · have hedit := h.edit_le he
    exact ⟨hedit.1, Or.inl hedit.2⟩
  · have hslot := h.slot_le hpage
    have hsig := h.signature_after
    dsimp only [Patch.shift, slotPatch]
    omega

/-- The patches lie apart. -/
theorem pairwise_patches : (patches sha256 file edits d).Pairwise Patch.Apart := by
  rw [patches, List.pairwise_append]
  refine ⟨?_, ?_, fun p hp q hq => ?_⟩
  · refine List.pairwise_map.mpr (h.reviewed.apart.imp_of_mem fun {l r} hl _ hlr => Or.inl ?_)
    rw [(h.reviewed.valid l hl).stop]
    exact hlr
  · rw [slotPatches, List.map_map, List.pairwise_map]
    exact (nodup_editedPages edits).imp fun hne => (slotPatch_apart hne).shift _
  · obtain ⟨e, he, rfl⟩ := List.mem_map.mp hp
    obtain ⟨slot, -, rfl⟩ := List.mem_map.mp hq
    have hedit := h.edit_le he
    refine Or.inl ?_
    dsimp only [Patch.shift]
    omega

/-! ### The patched file -/

theorem length_target : (target sha256 file edits d).length = file.length :=
  Patch.length_writeAll fun _ hp => h.stop_le hp

/-- The patched file holds the patches. -/
theorem holds_target (hp : p ∈ patches sha256 file edits d) : p.Holds (target sha256 file edits d) :=
  Patch.holds_writeAll_of_mem (fun _ hq => h.stop_le hq) h.pairwise_patches hp

/-- The patched file has the bytes of the file outside of the patches. -/
theorem getElem?_target {k : ℕ} (hk : ∀ p ∈ patches sha256 file edits d, ¬p.Covers k) :
    (target sha256 file edits d)[k]? = file[k]? :=
  Patch.getElem?_writeAll (fun _ hp => h.stop_le hp) hk

/-- The header is left as it is. -/
theorem header_target : headerOf (target sha256 file edits d) = headerOf file :=
  Patch.slice_writeAll (fun _ hp => h.stop_le hp) fun _ hp => Or.inr (h.patch_after hp).1

theorem signatureOffset_target :
    signatureOffset (target sha256 file edits d) = signatureOffset file := by
  rw [signatureOffset, h.header_target, signatureOffset]

theorem signatureSize_target :
    signatureSize (target sha256 file edits d) = signatureSize file := by
  rw [signatureSize, h.header_target, signatureSize]

/-- An edited page becomes the page with its edits. -/
theorem page_target (hpage : page ∈ editedPages edits) :
    pageOf (target sha256 file edits d) page = editPage edits page (pageOf file page) := by
  have hvalid := h.reviewed.valid
  have hafter := h.after page hpage
  rw [Nat.add_mul, Nat.one_mul] at hafter
  rw [editPage_eq fun e he => (hvalid e he).length]
  refine Patch.slice_eq_writeAll h.length_target (fun p hp => ?_) fun k hk hlt hout => ?_
  · obtain ⟨e, he, rfl⟩ := List.mem_map.mp hp
    obtain ⟨hmem, hin⟩ := List.mem_filter.mp he
    obtain rfl := of_decide_eq_true hin
    rw [← Patch.stop_shift, e.shift_patch]
    exact ⟨(hvalid e hmem).in_page.2, h.holds_target (mem_patches.mpr (Or.inl ⟨e, hmem, rfl⟩))⟩
  · refine h.getElem?_target fun p hp hcovers => ?_
    obtain ⟨e, he, rfl⟩ | ⟨page', -, rfl⟩ := mem_patches.mp hp
    · -- An edit of a byte of the page is one of its edits.
      obtain rfl := (hvalid e he).page_of_covers hcovers hk hlt
      have hmem : e ∈ edits.filter fun e' => e'.offset / pageSize = e.offset / pageSize :=
        List.mem_filter.mpr ⟨he, decide_eq_true rfl⟩
      refine hout _ (List.mem_map.mpr ⟨e, hmem, rfl⟩) ?_
      rw [e.shift_patch]
      exact hcovers
    · have hcovers := hcovers.1
      dsimp only [Patch.shift] at hcovers
      omega

/-- The code directory gets the new hashes. -/
theorem directory_target : slice (target sha256 file edits d) (signatureOffset file + d.cd_offset)
    (signatureOffset file + d.cd_offset + d.cd.length) =
      Patch.writeAll (slotPatches sha256 file edits d) d.cd := by
  conv_rhs => rw [← h.slice_directory]
  refine Patch.slice_eq_writeAll h.length_target (fun p hp => ?_) fun k hk hlt hout => ?_
  · obtain ⟨page, hpage, rfl⟩ := List.mem_map.mp hp
    have hslot := h.slot_le hpage
    refine ⟨?_, h.holds_target (mem_patches.mpr (Or.inr ⟨page, hpage, rfl⟩))⟩
    rw [slotPatch_stop]
    omega
  · refine h.getElem?_target fun p hp hcovers => ?_
    obtain ⟨e, he, rfl⟩ | ⟨page, hpage, rfl⟩ := mem_patches.mp hp
    · have hedit := h.edit_le he
      have hto := hcovers.2
      omega
    · exact hout _ (List.mem_map_of_mem hpage) hcovers

/-- Up to the end of the header of the code directory, the signature is left as it is. -/
theorem signature_target {k : ℕ} (hk : k < d.cd_offset + codedirectoryHeaderSize) :
    (signatureOf (target sha256 file edits d))[k]? = (signatureOf file)[k]? := by
  rw [codedirectoryHeaderSize] at hk
  rw [signatureOf, h.signatureOffset_target, h.signatureSize_target, getElem?_slice, signatureOf,
    getElem?_slice]
  split_ifs
  · refine h.getElem?_target fun p hp hcovers => ?_
    obtain ⟨-, hp⟩ := h.patch_after hp
    obtain ⟨hfrom, hto⟩ := hcovers
    omega
  · rfl

theorem length_signature_target :
    (signatureOf (target sha256 file edits d)).length = (signatureOf file).length := by
  rw [signatureOf, h.signatureOffset_target, h.signatureSize_target, length_slice, h.length_target,
    signatureOf, length_slice]

/-- The code directory of the patched file has the new hashes. -/
theorem parse_target : parseCodeDirectory (signatureOf (target sha256 file edits d)) 0 0 =
    .ok { d with cd := Patch.writeAll (slotPatches sha256 file edits d) d.cd } := by
  obtain ⟨-, -, -, hbounds⟩ := parseCodeDirectory_ok h.parsed
  have hdirectory := hbounds.directory
  have hsuperblob := hbounds.superblob
  rw [h.length_signature] at hsuperblob
  have hcongr := parseCodeDirectory_congr h.parsed h.length_signature_target
    fun k hk => h.signature_target hk
  rw [hcongr, ← h.directory_target]
  congr 2
  rw [signatureOf, h.signatureOffset_target, h.signatureSize_target, slice_slice (by omega),
    Nat.add_assoc _ d.cd_offset]

/-- The hashes stand where they stood. -/
theorem isSlot_target {pos : ℕ} :
    IsSlot (target sha256 file edits d) page pos ↔ IsSlot file page pos := by
  unfold IsSlot
  rw [h.signatureOffset_target]
  constructor
  · rintro ⟨r, hr, rfl⟩
    have hoffset : r.cd_offset = d.cd_offset := (parse_pages h.parse_target hr).2.1
    have hcongr := parseCodeDirectory_congr hr h.length_signature_target.symm
      fun k hk => (h.signature_target (hoffset ▸ hk)).symm
    exact ⟨_, hcongr, rfl⟩
  · rintro ⟨r, hr, rfl⟩
    have hoffset : r.cd_offset = d.cd_offset := (parse_pages h.parsed hr).2.1
    have hcongr := parseCodeDirectory_congr hr h.length_signature_target
      fun k hk => h.signature_target (hoffset ▸ hk)
    exact ⟨_, hcongr, rfl⟩

/-- The place of the hash of a page. -/
theorem eq_of_isSlot {pos : ℕ} (hpos : IsSlot file page pos) :
    pos = signatureOffset file + d.cd_offset + slotOf file d page := by
  obtain ⟨r, hr, rfl⟩ := hpos
  obtain ⟨hslot, hoffset, -, -⟩ := slot_spec h.parsed hr
  rw [hslot, hoffset]

theorem isSlot_of_mem (hpage : page ∈ editedPages edits) :
    IsSlot file page (signatureOffset file + d.cd_offset + slotOf file d page) := by
  obtain ⟨r, hr⟩ := (h.checked page hpage).parsed
  obtain ⟨hslot, hoffset, -, -⟩ := slot_spec h.parsed hr
  exact ⟨r, hr, by rw [hslot, hoffset]⟩

/-! ### The regions -/

/-- What a region writes is what the patched file has there. -/
theorem holds_regions {r : Region} (hr : r ∈ regionsOf sha256 file edits d) :
    r.patch.Holds (target sha256 file edits d) := by
  obtain rfl | ⟨page, hpage, rfl | rfl⟩ := mem_regionsOf.mp hr
  · have hlen := h.header
    refine Patch.holds_of_slice (by rw [Region.patch, hlen]; omega) ?_
    rw [Patch.stop, Region.patch, hlen]
    exact h.header_target
  · have hlen := h.length_page hpage
    refine Patch.holds_of_slice (by rw [Region.patch, hlen, pageSize]; omega) ?_
    rw [Patch.stop, Region.patch, hlen]
    exact h.page_target hpage
  · exact h.holds_target (mem_patches.mpr (Or.inr ⟨page, hpage, rfl⟩))

/-- A byte that is patched lies in a region. -/
theorem covers_regions {k : ℕ} (hp : p ∈ patches sha256 file edits d) (hk : p.Covers k) :
    ∃ r ∈ regionsOf sha256 file edits d, r.patch.Covers k := by
  obtain ⟨e, he, rfl⟩ | ⟨page, hpage, rfl⟩ := mem_patches.mp hp
  · have hpage := mem_editedPages.mpr ⟨e, he, rfl⟩
    obtain ⟨hstart, hstop⟩ := (h.reviewed.valid e he).in_page
    obtain ⟨hfrom, hto⟩ := hk
    refine ⟨_, mem_regionsOf.mpr (Or.inr ⟨_, hpage, Or.inl rfl⟩), ?_, ?_⟩
    · exact hstart.trans hfrom
    · rw [Patch.stop, Region.patch, h.length_page hpage]
      exact hto.trans_le hstop
  · exact ⟨_, mem_regionsOf.mpr (Or.inr ⟨page, hpage, Or.inr rfl⟩), hk⟩

/-- The regions make the patched file, in whichever order they are written. -/
theorem writeAll_regions {order : List Region} (horder : order.Perm (regionsOf sha256 file edits d)) :
    Patch.writeAll (order.map Region.patch) file = target sha256 file edits d := by
  refine Patch.writeAll_eq h.length_target (fun p hp => ?_) fun k hk => ?_
  · obtain ⟨r, hr, rfl⟩ := List.mem_map.mp hp
    exact h.holds_regions (horder.mem_iff.mp hr)
  · refine h.getElem?_target fun p hp hcovers => ?_
    obtain ⟨r, hr, hr'⟩ := h.covers_regions hp hcovers
    exact hk _ (List.mem_map_of_mem (horder.mem_iff.mpr hr)) hr'

end Accepted

end Target

/-! ## What is returned -/

/-- An edit of the specification changes the page. -/
def EditedPage (spec : Json) (page : ℕ) : Prop :=
  ∃ e, Specifies spec e ∧ e.offset / pageSize = page

/-- What a file is to have become when the regions have been written to it. -/
structure Patched (sha256 : Bytes → Digest) (spec : Json) (file : Bytes) (regions : List Region)
    (cdhash result : Bytes) : Prop where
  /-- The regions have the bytes of the file before, and as many after. -/
  before : ∀ r ∈ regions, slice file r.offset (r.offset + r.before.length) = r.before ∧
    r.after.length = r.before.length
  length : result.length = file.length
  /-- The edits have been made. -/
  edits : ∀ e, Specifies spec e → slice result e.offset (e.offset + e.before.length) = e.after
  /-- The hashes stand where they stood. -/
  slots : ∀ page pos, IsSlot result page pos ↔ IsSlot file page pos
  /-- An edited page has a hash, and it is that of the page. -/
  edited : ∀ page, EditedPage spec page → ∃ pos, IsSlot result page pos ∧
    slice result pos (pos + 32) = (sha256 (pageOf result page)).1
  /-- Every other page has the hash that it had. -/
  unedited : ∀ page pos, ¬EditedPage spec page → IsSlot result page pos →
    slice result pos (pos + 32) = slice file pos (pos + 32)
  /-- No byte changes but those of the edits and of the hashes of the edited pages. -/
  others : ∀ k, (∀ e, Specifies spec e → ¬(e.offset ≤ k ∧ k < e.offset + e.before.length)) →
    (∀ page pos, EditedPage spec page → IsSlot file page pos → ¬(pos ≤ k ∧ k < pos + 32)) →
    result[k]? = file[k]?
  /-- The hash is that of the code directory. -/
  cdhash : ∃ r, parseCodeDirectory (signatureOf result) 0 0 = .ok r ∧
    cdhash = (hexdigest sha256 r.cd).take 40

section

variable {sha256 : Bytes → Digest} {spec : Json} {file : Bytes} {edits : List Edit}
  {d : CodeDirectory} {page : ℕ}

theorem Reviewed.editedPage_iff (h : Reviewed spec file edits) :
    EditedPage spec page ↔ page ∈ editedPages edits := by
  rw [mem_editedPages]
  constructor
  · rintro ⟨e, he, rfl⟩
    exact ⟨e, (h.mem e).mpr he, rfl⟩
  · rintro ⟨e, he, rfl⟩
    exact ⟨e, (h.mem e).mp he, rfl⟩

/-- The patched file is what the file is to have become. -/
theorem Accepted.patched (h : Accepted sha256 spec file edits d) :
    Patched sha256 spec file (regionsOf sha256 file edits d)
      ((hexdigest sha256 (Patch.writeAll (slotPatches sha256 file edits d) d.cd)).take 40)
      (target sha256 file edits d) where
  before _ hr := h.before_regions hr
  length := h.length_target
  edits e he := by
    have hmem := (h.reviewed.mem e).mpr he
    have hholds := h.holds_target (mem_patches.mpr (Or.inl ⟨e, hmem, rfl⟩))
    rw [← (h.reviewed.valid e hmem).stop]
    exact hholds.bytes
  slots _ _ := h.isSlot_target
  edited page hpage := by
    rw [h.reviewed.editedPage_iff] at hpage
    have hholds := h.holds_target (mem_patches.mpr (Or.inr ⟨page, hpage, rfl⟩))
    refine ⟨_, h.isSlot_target.mpr (h.isSlot_of_mem hpage), ?_⟩
    rw [h.page_target hpage]
    have hbytes := hholds.bytes
    rw [Patch.stop_shift, slotPatch_stop, ← Nat.add_assoc] at hbytes
    exact hbytes
  unedited page pos hpage hpos := by
    rw [h.reviewed.editedPage_iff] at hpage
    obtain rfl := h.eq_of_isSlot (h.isSlot_target.mp hpos)
    refine Patch.slice_writeAll (fun _ hp => h.stop_le hp) fun p hp => ?_
    obtain ⟨e, he, rfl⟩ | ⟨page', hpage', rfl⟩ := mem_patches.mp hp
    · have hedit := h.edit_le he
      omega
    · have hne : page' ≠ page := fun heq => hpage (heq ▸ hpage')
      rw [Patch.stop_shift, slotPatch_stop]
      dsimp only [Patch.shift, slotPatch, slotOf]
      omega
  others k hedits hslots := by
    refine h.getElem?_target fun p hp hcovers => ?_
    obtain ⟨e, he, rfl⟩ | ⟨page, hpage, rfl⟩ := mem_patches.mp hp
    · refine hedits e ((h.reviewed.mem e).mp he) ?_
      rw [← (h.reviewed.valid e he).stop]
      exact hcovers
    · refine hslots page _ (h.reviewed.editedPage_iff.mpr hpage) (h.isSlot_of_mem hpage) ?_
      unfold Patch.Covers at hcovers
      rw [Patch.stop_shift, slotPatch_stop, ← Nat.add_assoc] at hcovers
      exact hcovers
  cdhash := ⟨_, h.parse_target, rfl⟩

end

/-- Whatever the file and the specification, if a payload is returned for them and the signature comes
after the edited pages, then a file to which all regions are written, in any order, is one with the
edits and with the hashes of its edited pages, and it is the same otherwise. -/
theorem cachePayload_patches (sha256 : Bytes → Digest) (cache : String) (file : Bytes) (spec : Json)
    (regions order : List Region) (cdhash : Bytes)
    (h : cachePayload sha256 cache file spec = .ok (regions, cdhash))
    (hsig : ∀ page, EditedPage spec page → (page + 1) * pageSize ≤ signatureOffset file)
    (horder : order.Perm regions) :
    Patched sha256 spec file regions cdhash (Patch.writeAll (order.map Region.patch) file) := by
  obtain ⟨edits, d, hreturned, rfl, rfl⟩ := cachePayload_ok h
  have haccepted : Accepted sha256 spec file edits d :=
    ⟨hreturned, fun page hpage => hsig page (hreturned.reviewed.editedPage_iff.mpr hpage)⟩
  rw [haccepted.writeAll_regions horder]
  exact haccepted.patched

/-- A cache of one page, with its signature. -/
def onePage : Bytes :=
  ascii "dyld".toList ++ 186 :: List.replicate 35 0 ++ leBytes 8 16384 ++ leBytes 8 96 ++
    List.replicate 16328 0 ++ oneSlot

/-- An edit of one byte, in the first page. -/
def oneEdit : Json := .object [
  ("cache_name".toList, .string "dyld_shared_cache_arm64e".toList),
  ("purpose".toList, .string "example".toList),
  ("edits".toList, .array [.object [
    ("offset".toList, .string "0x1000".toList),
    ("before".toList, .string "00".toList),
    ("after".toList, .string "01".toList)]])]

/-- The sum of the bytes, 32 times, for a hash. -/
def sums (s : Bytes) : Digest :=
  ⟨List.replicate 32 (s.foldl (fun n b => n + b) 0), List.length_replicate⟩

theorem cachePayload_patches_onePage : ∃ regions cdhash,
    cachePayload sums "dyld_shared_cache_arm64e" onePage oneEdit = .ok (regions, cdhash) ∧
      Patched sums oneEdit onePage regions cdhash
        (Patch.writeAll (regions.map Region.patch) onePage) := by
  have hok : (cachePayload sums "dyld_shared_cache_arm64e" onePage oneEdit).toOption.isSome := by
    decide +kernel
  obtain ⟨⟨regions, cdhash⟩, h⟩ := exists_of_isOk hok
  refine ⟨regions, cdhash, h, cachePayload_patches sums _ onePage oneEdit regions regions cdhash h
    (fun page hpage => ?_) (List.Perm.refl _)⟩
  obtain ⟨e, ⟨v, items, hv, hitems, item, hitem, hread⟩, rfl⟩ := hpage
  obtain rfl := Except.ok.inj hv
  obtain rfl := Except.ok.inj hitems
  obtain rfl := List.mem_singleton.mp hitem
  have hoffset : (e.offset : ℤ) = 4096 := by
    have hitem : (readEdit (.object [("offset".toList, .string "0x1000".toList),
        ("before".toList, .string "00".toList), ("after".toList, .string "01".toList)])).map
          Prod.fst = .ok (some 4096) := by decide +kernel
    rw [hread] at hitem
    exact Option.some.inj (Except.ok.inj hitem)
  have hsig : signatureOffset onePage = 16384 := by decide +kernel
  rw [hsig, pageSize]
  omega

end DarwinVm.Signature.Payload
