import SourceMarks.Proofs.CommandLine.Batch

/-!
Batch runs into another folder. A written file is found at its relative path below that folder,
unless a later one has the same relative path; files under one path of the command line never do.
-/
namespace SourceMarks
open PathSymbol
variable {t tree : Tree} {dir : RawPath} {extensions : List Text} {q : List RawText}
  {inputs : List RawPath}

namespace CommandLine

theorem destination_eq_iff {j j' : Job} (hj : j ∈ jobs tree extensions inputs)
    (hj' : j' ∈ jobs tree extensions inputs) (dir : RawPath) :
    j.destination (some dir) = j'.destination (some dir) ↔ j.relative = j'.relative := by
  constructor
  · intro h
    obtain ⟨names, hne, hn, hr⟩ := relative_of_mem_jobs hj
    obtain ⟨names', hne', hn', hr'⟩ := relative_of_mem_jobs hj'
    change dir.join j.relative = dir.join j'.relative at h
    rw [hr, hr'] at h ⊢
    have hsolid := fun n hm => (hn n hm).solid
    have hsolid' := fun n hm => (hn' n hm).solid
    rw [Path.join_names_inj hsolid hne hsolid' hne' h]
  · intro h
    exact congrArg dir.join h

/-- Files found under one path have different relative paths. -/
theorem nodup_relative (tree : Tree) (extensions : List Text) (input : RawPath) :
    ((jobs tree extensions [input]).map Job.relative).Nodup := by
  rw [jobs, List.flatMap_singleton, Tree.discover]
  split
  · simp
  · cases hf : tree.folderAt? input with
    | none => simp
    | some inner =>
      obtain ⟨q, hl, hg⟩ := Tree.folderAt?_eq_some_iff.mp hf
      have hproper := Listing.proper_of_get? tree.proper hg
      have hbase : baseOf tree input = input := if_pos (Tree.isFolder_of_get? hl hg)
      have hsolid : ∀ names ∈ inner.files input, ∀ n ∈ names, n ≠ [] ∧ slash ∉ n :=
        fun names hn n hm => ((Listing.mem_files hproper hn).2 n hm).solid
      have hnodup : ((inner.files input).map Path.ofParts).Nodup := by
        refine List.Nodup.map_on (fun x hx y hy => ?_) (Listing.nodup_files hproper)
        exact Path.ofParts_inj (hsolid x hx) (hsolid y hy)
      have hrel : ∀ names ∈ inner.files input,
          Job.relative ⟨input.under names, input⟩ = .ofParts names := by
        intro names hn
        have hne := Listing.ne_nil_of_mem_files hproper hn
        rw [Path.under_eq (hsolid names hn) hne]
        exact SourceFile.relative_join (Listing.mem_files hproper hn).2 hne
          (Tree.text_ne_nil_of_leads hl)
      -- Neither the order nor the extensions matter to what is different.
      rw [List.map_map, hbase]
      refine ((List.mergeSort_perm _ _).map _).nodup_iff.mpr ?_
      refine (List.filter_sublist.map _).nodup ?_
      rw [List.map_map]
      exact List.map_congr_left hrel ▸ hnodup

/-- Files with different relative paths are written to different places. -/
theorem relative_of_leads {j j' : Job} (hj : j ∈ jobs tree extensions inputs)
    (hj' : j' ∈ jobs tree extensions inputs) (h : t.Leads (j.destination (some dir)) q)
    (h' : t.Leads (j'.destination (some dir)) q) : j.relative = j'.relative := by
  obtain ⟨names, hne, hn, hr⟩ := relative_of_mem_jobs hj
  obtain ⟨names', hne', hn', hr'⟩ := relative_of_mem_jobs hj'
  change t.Leads (dir.join j.relative) q at h
  change t.Leads (dir.join j'.relative) q at h'
  rw [hr] at h ⊢
  rw [hr'] at h' ⊢
  rw [Tree.names_of_leads hn hne hn' hne' h h']

/-- With an output folder a written file is found at its relative path below the folder, unless a
file with the same relative path was written later. -/
theorem outDir_kept (tree : Tree) (start : Text) {r : Request} {settings : Settings}
    {dir : RawPath} (hv : r.verb ≠ .check) (hs : Settings.discover tree r.config = .ok settings)
    (hd : r.outDir = some dir) :
    let chain := chainOf tree settings start r
    let js := jobs tree settings.extensions r.paths
    let o := perform tree start r
    (∀ args, read args = .perform r → run tree start args = o) ∧
    ∃ (done : List (Job × ByteArray)) (failures : List FailureRecord),
      (done.map Prod.fst).Sublist js ∧ done.length + failures.length = js.length ∧
      (o.exitCode = 0 ↔ failures = []) ∧
      o.output = Report.ofRun false r.format
        ⟨chain.name, done.map fun d => dir.join d.1.relative, failures⟩ ++ ['\n'] ∧
      (∀ d ∈ done, d.1.made tree chain = .ok d.2) ∧
      (∀ before d after, done = before ++ d :: after →
        (∀ later ∈ after, later.1.relative ≠ d.1.relative) →
          o.tree.read (dir.join d.1.relative) = .ok d.2) ∧
      (∀ j ∈ js, ∀ j' ∈ js,
        dir.join j.relative = dir.join j'.relative ↔ j.relative = j'.relative) ∧
      ∀ input ∈ r.paths, ((jobs tree settings.extensions [input]).map Job.relative).Nodup := by
  intro chain js o
  obtain ⟨done, failed, hb, -, hout, hexit⟩ := exists_performed start hv hs
  rw [hd] at hb
  rw [summaryOf, hd] at hout
  have hlength := hb.parts.length_eq
  refine ⟨fun args => run_eq_perform start, done, _, hb.order, by simpa using hlength.symm, ?_,
    hout, hb.made, ?_, fun j hj j' hj' => destination_eq_iff hj hj' dir,
    fun input _ => nodup_relative tree settings.extensions input⟩
  · rw [hexit, List.map_eq_nil_iff]
    cases failed <;> simp
  intro before d after hsplit hlater
  have hmem : ∀ x ∈ done, x.1 ∈ js := fun x hx => hb.order.subset (List.mem_map_of_mem hx)
  have hdone : d ∈ done := by simp [hsplit]
  obtain ⟨q, hq⟩ := hb.outputs.reached d hdone
  refine Tree.read_eq_ok_iff.mpr ⟨q, hq, Tree.file?_eq_some_iff.mp ?_⟩
  refine hb.outputs.last before d after q hsplit hq fun later hl hq' => hlater later hl ?_
  exact relative_of_leads (hmem later (by simp [hsplit, hl])) (hmem d hdone) hq' hq

/-- Both pages are written, and the second is found in the end. -/
theorem outDir_kept_pages :
    let o := run pages ['0'] pagesArgs
    let done := [(firstPage, Text.encode "a/1.js?v=7\n"), (secondPage, Text.encode "b/2.js?v=7\n")]
    o.exitCode = 0 ∧
    o.output = Report.ofRun false .text
      ⟨"no-cache", done.map fun d => outFolder.join d.1.relative, []⟩ ++ ['\n'] ∧
    (∀ d ∈ done, d.1.made pages [.noCache ['7']] = .ok d.2) ∧
    o.tree.read (outFolder.join secondPage.relative) = .ok (Text.encode "b/2.js?v=7\n") ∧
    outFolder.join firstPage.relative = outFolder.join secondPage.relative := by
  obtain ⟨hrun, done, failures, horder, hlength, hexit, hout, hmade, hkept, hplaces, -⟩ :=
    outDir_kept pages ['0'] (r := pagesRequest) (by decide) discover_pages rfl
  rw [← hrun _ read_pagesArgs] at hexit hout hkept
  obtain rfl := hexit.mp run_pages.1
  have hd : done = [(firstPage, Text.encode "a/1.js?v=7\n"),
      (secondPage, Text.encode "b/2.js?v=7\n")] := by
    obtain ⟨ha, hb, -⟩ := made_pages
    refine eq_of_made hmade ?_ (horder.eq_of_length (by simpa using hlength))
    exact List.forall_mem_cons.mpr ⟨ha, List.forall_mem_singleton.mpr hb⟩
  subst hd
  have hsame : firstPage.relative = secondPage.relative := rfl
  exact ⟨run_pages.1, hout, hmade, hkept [_] _ [] rfl (by simp),
    (hplaces _ List.mem_cons_self _ (.tail _ List.mem_cons_self)).mpr hsame⟩

/-- Two files of one name are written to one place, and only the second is found there. -/
theorem not_outDir_kept :
    ¬ ∀ (tree : Tree) (start : Text) (args : List Text) (r : Request) (settings : Settings),
      read args = .perform r → r.verb ≠ .check → Settings.discover tree r.config = .ok settings →
        r.outDir.isSome →
          ((jobs tree settings.extensions r.paths).Pairwise fun j j' =>
            ∀ q, tree.Leads j.path q → ¬ tree.Leads j'.path q) →
            (run tree start args).exitCode = 0 →
              ∀ j ∈ jobs tree settings.extensions r.paths, ∀ b,
                j.made tree (chainOf tree settings start r) = .ok b →
                  (run tree start args).tree.read (j.destination r.outDir) = .ok b := by
  intro h
  have hsecond : pages.Leads secondPage.path [Text.bytes ['b'], Text.bytes "x.js"] := rfl
  have hdistinct : [firstPage, secondPage].Pairwise fun j j' =>
      ∀ q, pages.Leads j.path q → ¬ pages.Leads j'.path q := by
    simp only [List.pairwise_cons, List.mem_singleton, forall_eq, List.not_mem_nil, false_imp_iff,
      implies_true, List.Pairwise.nil, and_true]
    intro q hq hq'
    have he := (hq.unique leads_firstPage).symm.trans (hq'.unique hsecond)
    cases he
  obtain ⟨hexit, htree⟩ := run_pages
  have hread := h pages ['0'] pagesArgs pagesRequest .default read_pagesArgs (by decide)
    discover_pages rfl hdistinct hexit firstPage List.mem_cons_self _ made_pages.1
  rw [htree] at hread
  change Except.ok (Text.encode "b/2.js?v=7\n") = _ at hread
  have hdecode := congrArg Text.decode? (Except.ok.inj hread)
  rw [Text.decode?_encode, Text.decode?_encode] at hdecode
  revert hdecode
  decide

end CommandLine
end SourceMarks
