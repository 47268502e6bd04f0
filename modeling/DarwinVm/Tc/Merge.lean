import DarwinVm.Tc.Module

/-!
# Merging trust caches

What `main` of `tools/rootfs/merge_tc.py` writes: the first entry of each hash, sorted by the hash
(`main_eq`). `merge_modules` states what this means for the module that is written, and that to
merge it again changes nothing.
-/

namespace DarwinVm.Tc

/-- The entries of modules that `load` has accepted, in their order. -/
def allEntries (rs : List (ℕ × Bytes × List Bytes)) : List Bytes := rs.flatMap fun r => r.2.2

/-- The loop has gone over the entries: it has kept the first one of each hash. -/
structure Merge.Collected (s : Merge) (done : List Bytes) : Prop where
  all_entries : s.all_entries = firsts entryHash [] done
  seen : ∀ h, h ∈ s.seen ↔ h ∈ done.map entryHash

/-- One turn of the loop over the entries. -/
theorem Merge.Collected.addEntry {s : Merge} {done : List Bytes} (h : s.Collected done) (e : Bytes) :
    (s.addEntry e).Collected (done ++ [e]) ∧ (s.addEntry e).uuid0 = s.uuid0 := by
  have hfirsts : firsts entryHash [] (done ++ [e]) = s.all_entries ++
      if entryHash e ∈ s.seen then [] else [e] := by
    rw [firsts_append, List.append_nil, ← h.all_entries, firsts, firsts, firsts]
    by_cases hseen : entryHash e ∈ s.seen
    · rw [if_pos hseen, if_pos ((h.seen _).mp hseen)]
    · rw [if_neg hseen, if_neg (mt (h.seen _).mpr hseen)]
  unfold Merge.addEntry
  split
  · rename_i hseen
    rw [if_pos hseen, List.append_nil] at hfirsts
    refine ⟨⟨hfirsts.symm, fun k => ?_⟩, rfl⟩
    rw [List.map_append, List.mem_append, ← h.seen, List.map_singleton, List.mem_singleton]
    exact ⟨.inl, fun hk => hk.elim id fun he => he ▸ hseen⟩
  · rename_i hseen
    rw [if_neg hseen] at hfirsts
    refine ⟨⟨hfirsts.symm, fun k => ?_⟩, rfl⟩
    rw [List.map_append, List.mem_append, ← h.seen, List.map_singleton, List.mem_singleton,
      List.mem_cons]
    exact or_comm

/-- The loop over the entries of a module. -/
theorem Merge.Collected.foldl : ∀ {s : Merge} {done : List Bytes}, s.Collected done →
    ∀ es : List Bytes, (es.foldl Merge.addEntry s).Collected (done ++ es) ∧
      (es.foldl Merge.addEntry s).uuid0 = s.uuid0
  | s, done, h, [] => ⟨by rwa [List.append_nil], rfl⟩
  | s, done, h, e :: es => by
    obtain ⟨he, huuid⟩ := h.addEntry e
    obtain ⟨hes, huuid'⟩ := he.foldl es
    rw [List.append_assoc, List.singleton_append] at hes
    exact ⟨hes, huuid'.trans huuid⟩

/-- The loop over the modules, all of which `load` accepts. -/
theorem Merge.Collected.foldlM : ∀ {ms : List (Text × Bytes)} {rs : List (ℕ × Bytes × List Bytes)}
    {s : Merge} {done : List Bytes}, s.Collected done →
    ms.mapM (fun m => load m.1 m.2) = .ok rs →
    ∃ s' : Merge, ms.foldlM Merge.addModule s = .ok s' ∧ s'.Collected (done ++ allEntries rs) ∧
      s'.uuid0 = s.uuid0.or (rs.head?.map fun r => r.2.1)
  | [], rs, s, done, h, hload => by
    obtain rfl : [] = rs := Except.ok.inj hload
    exact ⟨s, rfl, by rwa [allEntries, List.flatMap_nil, List.append_nil], by simp⟩
  | m :: ms, rs, s, done, h, hload => by
    simp only [List.mapM_cons, bind, bind_eq_ok] at hload
    obtain ⟨r, hr, rs', hrs, hload⟩ := hload
    obtain rfl : r :: rs' = rs := Except.ok.inj hload
    obtain ⟨version, uuid, es⟩ := r
    -- The state with the UUID of the first module.
    have hs : (if s.uuid0 = none then { s with uuid0 := some uuid } else s).Collected done ∧
        (if s.uuid0 = none then { s with uuid0 := some uuid } else s).uuid0 =
          s.uuid0.or (some uuid) := by
      split
      · rename_i hnone
        exact ⟨⟨h.all_entries, h.seen⟩, by rw [hnone]; rfl⟩
      · rename_i hsome
        obtain ⟨u, hu⟩ := Option.ne_none_iff_exists'.mp hsome
        exact ⟨h, by rw [hu]; rfl⟩
    obtain ⟨hes, huuid⟩ := hs.1.foldl es
    obtain ⟨s', hs', hcollected, huuid'⟩ := hes.foldlM hrs
    refine ⟨s', ?_, ?_, ?_⟩
    · rw [List.foldlM_cons, Merge.addModule, hr]
      exact hs'
    · rwa [List.append_assoc] at hcollected
    · rw [huuid', huuid, hs.2, List.head?_cons, Option.map_some]
      cases s.uuid0 <;> rfl

/-- What `main` writes for modules that `load` accepts: the first entry of each hash, sorted. -/
theorem main_eq {ms : List (Text × Bytes)} {r : ℕ × Bytes × List Bytes}
    {rs : List (ℕ × Bytes × List Bytes)} (h : ms.mapM (fun m => load m.1 m.2) = .ok (r :: rs)) :
    let entries := sortByKey entryHash (firsts entryHash [] (allEntries (r :: rs)))
    main ms = if entries.length < 2 ^ 32 then
      .ok (header 2 r.2.1 entries.length ++ entries.flatten) else .error .struct := by
  have hne : ms ≠ [] := by
    rintro rfl
    cases h
  have hinit : (⟨[], [], 0, none⟩ : Merge).Collected [] := ⟨rfl, fun _ => Iff.rfl⟩
  obtain ⟨s, hs, hcollected, huuid⟩ := hinit.foldlM h
  rw [List.nil_append] at hcollected
  have huuid : s.uuid0 = some r.2.1 := huuid
  rw [main, if_neg hne]
  simp only [hs, bind, Except.bind, hcollected.all_entries, huuid]
  rw [ite_not]

/-- A module is the merge of entries: the first one of each hash, and nothing else, strictly
ascending. -/
structure Merged (all : List Bytes) (uuid : Bytes) (entries : List Bytes) (out : Bytes) : Prop where
  bytes : out = header 2 uuid entries.length ++ entries.flatten
  count : entries.length < 2 ^ 32
  length : ∀ e ∈ entries, e.length = 24
  ascending : Ascending entryHash entries
  hashes : ∀ h, h ∈ entries.map entryHash ↔ h ∈ all.map entryHash
  first : ∀ e ∈ entries, all.find? (entryHash · = entryHash e) = some e
  load : ∀ path, load path out = .ok (2, uuid, entries)

/-- The entries that `load` gives have 24 bytes, and the UUID has 16. -/
theorem length_of_load {path : Text} {data : Bytes} {r : ℕ × Bytes × List Bytes}
    (h : load path data = .ok r) : r.2.1.length = 16 ∧ ∀ e ∈ r.2.2, e.length = 24 := by
  obtain ⟨version, uuid, entries⟩ := r
  obtain ⟨raw, hloaded, -⟩ := load_eq_ok_iff.mp h
  refine ⟨hloaded.uuid, ?_⟩
  rcases hloaded.entries with ⟨-, heach, rfl⟩ | ⟨-, heach, rfl⟩
  · exact heach
  · intro e he
    obtain ⟨e', he', rfl⟩ := List.mem_map.mp he
    rw [List.length_append, heach e' he']
    rfl

/-- There are as many first entries as different hashes. -/
theorem length_sorted_firsts (all : List Bytes) :
    (sortByKey entryHash (firsts entryHash [] all)).length = (all.map entryHash).dedup.length := by
  have hperm : ((firsts entryHash [] all).map entryHash).Perm (all.map entryHash).dedup := by
    refine (List.perm_ext_iff_of_nodup (nodup_map_firsts [] all) (List.nodup_dedup _)).mpr fun h => ?_
    rw [mem_map_firsts, List.mem_dedup, and_iff_right List.not_mem_nil]
  rw [(perm_sortByKey _).length_eq, ← hperm.length_eq, List.length_map]

/-- The first entry of each hash, sorted, in a module of version 2. -/
theorem merged_sorted_firsts {all : List Bytes} {uuid : Bytes} (huuid : uuid.length = 16)
    (hlength : ∀ e ∈ all, e.length = 24) (hcount : (all.map entryHash).dedup.length < 2 ^ 32) :
    let entries := sortByKey entryHash (firsts entryHash [] all)
    Merged all uuid entries (header 2 uuid entries.length ++ entries.flatten) := by
  rw [← length_sorted_firsts] at hcount
  have hmem : ∀ e, e ∈ sortByKey entryHash (firsts entryHash [] all) ↔
      all.find? (entryHash · = entryHash e) = some e := by
    intro e
    rw [(perm_sortByKey _).mem_iff, mem_firsts, and_iff_right List.not_mem_nil]
  have heach : ∀ e ∈ sortByKey entryHash (firsts entryHash [] all), e.length = 24 := fun e he =>
    hlength e (List.mem_of_find?_eq_some ((hmem e).mp he))
  refine ⟨rfl, hcount, heach, ascending_sortByKey (nodup_map_firsts [] all), fun h => ?_,
    fun e he => (hmem e).mp he, fun path => ?_⟩
  · rw [((perm_sortByKey _).map entryHash).mem_iff, mem_map_firsts,
      and_iff_right List.not_mem_nil]
  · exact load_eq_ok_iff.mpr ⟨_, ⟨huuid, hcount, .inl ⟨rfl, heach, rfl⟩⟩, rfl⟩

/-- The merge of entries stays what it is when entries of the same hashes come after it. -/
theorem Merged.firsts_append {all more entries : List Bytes} {uuid out : Bytes}
    (h : Merged all uuid entries out) (hmore : more ⊆ all) :
    sortByKey entryHash (firsts entryHash [] (entries ++ more)) = entries := by
  have hseen : ∀ e ∈ more, entryHash e ∈ entries.map entryHash ++ [] := by
    intro e he
    rw [List.append_nil, h.hashes]
    exact List.mem_map_of_mem (hmore he)
  rw [DarwinVm.firsts_append, firsts_of_seen hseen, List.append_nil,
    firsts_of_nodup h.ascending.nodup fun _ _ => List.not_mem_nil, h.ascending.sortByKey_eq]

/-- Modules that `load` accepts, with fewer than `2 ^ 32` different hashes, are merged. To merge the
result again, alone or with some of the modules after it, writes the same bytes. -/
theorem merge_modules {ms : List (Text × Bytes)} {rs : List (ℕ × Bytes × List Bytes)}
    (hms : ms ≠ []) (hload : ms.mapM (fun m => load m.1 m.2) = .ok rs)
    (hcount : ((allEntries rs).map entryHash).dedup.length < 2 ^ 32) :
    ∃ uuid entries out, main ms = .ok out ∧ Merged (allEntries rs) uuid entries out ∧
      ∀ path more, (∀ m ∈ more, m ∈ ms) → main ((path, out) :: more) = .ok out := by
  obtain ⟨hms', hrs⟩ := mem_of_mapM hload
  obtain ⟨m₀, hm₀⟩ := List.exists_mem_of_ne_nil ms hms
  obtain ⟨r, rs', rfl⟩ : ∃ r rs', rs = r :: rs' := by
    obtain ⟨r, hr, -⟩ := hms' m₀ hm₀
    exact List.exists_cons_of_ne_nil (List.ne_nil_of_mem hr)
  have hlength : ∀ q ∈ r :: rs', q.2.1.length = 16 ∧ ∀ e ∈ q.2.2, e.length = 24 := fun q hq => by
    obtain ⟨m, -, hm⟩ := hrs q hq
    exact length_of_load hm
  have heach : ∀ e ∈ allEntries (r :: rs'), e.length = 24 := fun e he => by
    obtain ⟨q, hq, he⟩ := List.mem_flatMap.mp he
    exact (hlength q hq).2 e he
  have hmerged := merged_sorted_firsts (hlength r (List.mem_cons_self ..)).1 heach hcount
  have hmain := main_eq hload
  dsimp only at hmerged hmain
  rw [if_pos hmerged.count] at hmain
  refine ⟨_, _, _, hmain, hmerged, fun path more hmore => ?_⟩
  -- The modules after the result have been loaded before, so their hashes are in the result.
  generalize sortByKey entryHash (firsts entryHash [] (allEntries (r :: rs'))) = entries at hmerged ⊢
  obtain ⟨qs, hqs, hsub⟩ := exists_mapM fun m hm => hms' m (hmore m hm)
  have hload' : ((path, header 2 r.2.1 entries.length ++ entries.flatten) :: more).mapM
      (fun m => load m.1 m.2) = .ok ((2, r.2.1, entries) :: qs) := by
    simp only [List.mapM_cons, hmerged.load, hqs, bind, Except.bind, pure, Except.pure]
  have hall : allEntries ((2, r.2.1, entries) :: qs) = entries ++ allEntries qs := rfl
  have hqs' : allEntries qs ⊆ allEntries (r :: rs') := fun e he => by
    obtain ⟨q, hq, he⟩ := List.mem_flatMap.mp he
    exact List.mem_flatMap.mpr ⟨q, hsub hq, he⟩
  rw [main_eq hload', hall, hmerged.firsts_append hqs']
  exact if_pos hmerged.count

/-- A module of version 1 with two entries, and one of version 2 with the hash of the first of them. -/
def twoModules : List (Text × Bytes) :=
  [("a.tc".toList, header 1 (List.replicate 16 65) 2 ++ (List.replicate 20 9 ++ [2, 0]) ++
      (List.replicate 20 3 ++ [2, 0])),
    ("b.tc".toList, header 2 (List.replicate 16 66) 1 ++ (List.replicate 20 9 ++ [1, 0, 7, 0]))]

/-- What `load` gives for the two modules. -/
def twoLoaded : List (ℕ × Bytes × List Bytes) :=
  [(1, List.replicate 16 65, [List.replicate 20 9 ++ [2, 0, 0, 0], List.replicate 20 3 ++ [2, 0, 0, 0]]),
    (2, List.replicate 16 66, [List.replicate 20 9 ++ [1, 0, 7, 0]])]

/-- Two modules with a hash in common are merged. -/
theorem merge_modules_two : twoModules ≠ [] ∧
    twoModules.mapM (fun m => load m.1 m.2) = .ok twoLoaded ∧
      ((allEntries twoLoaded).map entryHash).dedup.length < 2 ^ 32 ∧
        ∃ uuid entries out, main twoModules = .ok out ∧
          Merged (allEntries twoLoaded) uuid entries out ∧
            ∀ path more, (∀ m ∈ more, m ∈ twoModules) → main ((path, out) :: more) = .ok out := by
  have hms : twoModules ≠ [] := List.cons_ne_nil _ _
  have hload : twoModules.mapM (fun m => load m.1 m.2) = .ok twoLoaded := by decide +kernel
  have hcount : ((allEntries twoLoaded).map entryHash).dedup.length < 2 ^ 32 := by decide +kernel
  exact ⟨hms, hload, hcount, merge_modules hms hload hcount⟩

end DarwinVm.Tc
