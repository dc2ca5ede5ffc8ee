import SourceMarks.Proofs.CommandLine.Jobs

/-!
Batch runs. Each file is made from the tree as it was before the run, and the run changes only files
to which the destinations of written files lead: they hold what was written there last.
-/
namespace SourceMarks.CommandLine
variable {tree mid final : Tree} {out : Option RawPath} {done todo : List (Job × ByteArray)}
  {d : Job × ByteArray} {lost : List (Job × Fault)} {w : Writing}

/-- One tree after another, with some files written to their destinations in order. -/
structure Outputs (tree final : Tree) (out : Option RawPath) (done : List (Job × ByteArray)) :
    Prop where
  grows : tree.Grows final
  reached : ∀ d ∈ done, ∃ q, final.Leads (d.1.destination out) q
  last : ∀ before d after q, done = before ++ d :: after → final.Leads (d.1.destination out) q →
    (∀ later ∈ after, ¬ final.Leads (later.1.destination out) q) → final.file? q = some d.2
  elsewhere : ∀ q, (∀ d ∈ done, ¬ final.Leads (d.1.destination out) q) →
    final.file? q = tree.file? q

namespace Outputs

theorem start (tree : Tree) (out : Option RawPath) : Outputs tree tree out [] :=
  ⟨Tree.Grows.refl tree, by simp, by simp, fun _ _ => rfl⟩

/-- The destinations so far lead where they led before. -/
theorem leads_of_grows (h : Outputs tree mid out done) (hg : mid.Grows final) (hd : d ∈ done)
    {q : List RawText} (hl : final.Leads (d.1.destination out) q) :
    mid.Leads (d.1.destination out) q := by
  obtain ⟨r, hr⟩ := h.reached d hd
  rwa [hl.unique (hg.leads hr)]

theorem reached_of_grows (h : Outputs tree mid out done) (hg : mid.Grows final) (hd : d ∈ done) :
    ∃ q, final.Leads (d.1.destination out) q :=
  (h.reached d hd).imp fun _ hq => hg.leads hq

/-- A write that fails leaves the outputs as they are. -/
theorem keep (h : Outputs tree mid out done) (ha : mid.AddsFolders final) :
    Outputs tree final out done := by
  refine ⟨h.grows.trans ha.grows, fun d hd => h.reached_of_grows ha.grows hd, ?_, ?_⟩
  · intro before d after q hs hl hlater
    rw [ha.file?]
    refine h.last before d after q hs (h.leads_of_grows ha.grows (by simp [hs]) hl) ?_
    exact fun later hm hl' => hlater later hm (ha.grows.leads hl')
  · intro q hq
    rw [ha.file?]
    exact h.elsewhere q fun d hd hl => hq d hd (ha.grows.leads hl)

theorem add (h : Outputs tree mid out done) (hw : mid.Written final (d.1.destination out) d.2) :
    Outputs tree final out (done ++ [d]) := by
  refine ⟨h.grows.trans hw.grows, ?_, ?_, ?_⟩
  · intro x hx
    cases List.mem_append.mp hx with
    | inl hx => exact h.reached_of_grows hw.grows hx
    | inr hx =>
      obtain rfl : x = d := by simpa using hx
      exact hw.leads
  · intro before x after q hs hl hlater
    cases after using List.reverseRecOn with
    | nil =>
      obtain rfl : d = x := by simpa using (List.append_inj' hs rfl).2
      exact hw.there q hl
    | append_singleton after y =>
      rw [← List.cons_append, ← List.append_assoc] at hs
      obtain ⟨hdone, hy⟩ := List.append_inj' hs rfl
      obtain rfl : d = y := by simpa using hy
      -- The new write is a later one, so it did not reach this trail.
      rw [hw.elsewhere q (hlater d (by simp))]
      refine h.last before x after q hdone (h.leads_of_grows hw.grows (by simp [hdone]) hl) ?_
      exact fun later hm hl' => hlater later (by simp [hm]) (hw.grows.leads hl')
  · intro q hq
    rw [hw.elsewhere q (hq d (by simp))]
    exact h.elsewhere q fun x hx hl => hq x (by simp [hx]) (hw.grows.leads hl)

end Outputs

/-- Writing in progress: which files were written, which were lost, and the tree so far. -/
structure Progress (tree : Tree) (out : Option RawPath) (todo : List (Job × ByteArray))
    (w : Writing) (done : List (Job × ByteArray)) (lost : List (Job × Fault)) : Prop where
  parts : (todo.map Prod.fst).Perm (done.map Prod.fst ++ lost.map Prod.fst)
  sublist : done.Sublist todo
  trouble : ∀ f ∈ lost, (∃ b, (f.1, b) ∈ todo) ∧
    ∃ trouble, f.2 = .unwritable (f.1.destination out) trouble
  written : w.written = done.map fun d => d.1.destination out
  failures : w.failures = lost.map failure
  outputs : Outputs tree w.tree out done

/-- Writing the next file adds it to the written files or to the lost ones. -/
theorem progress_writeOne (h : Progress tree out todo w done lost) (d : Job × ByteArray) :
    ∃ done' lost', Progress tree out (todo ++ [d]) (writeOne out w (d.1.file d.2)) done' lost' := by
  rw [writeOne]
  cases hw : (d.1.file d.2).write out w.tree with
  | ok r =>
    obtain ⟨o, final⟩ := r
    obtain ⟨rfl, hwritten⟩ := SourceFile.write_ok rfl hw
    refine ⟨done ++ [d], lost, ?_, h.sublist.append_right [d], ?_, ?_, h.failures,
      h.outputs.add hwritten⟩
    · have hp := h.parts.append_right [d.1]
      rw [List.append_assoc] at hp
      have hc := hp.trans (List.perm_append_comm.append_left _)
      simpa using hc
    · intro f hf
      obtain ⟨⟨b, hb⟩, he⟩ := h.trouble f hf
      exact ⟨⟨b, by simp [hb]⟩, he⟩
    · rw [List.map_append, ← h.written]
      rfl
  | error r =>
    obtain ⟨e, final⟩ := r
    obtain ⟨hadds, trouble, he⟩ := SourceFile.write_error rfl hw
    refine ⟨done, lost ++ [(d.1, e)], ?_, h.sublist.trans (List.sublist_append_left todo [d]), ?_,
      h.written, ?_, h.outputs.keep hadds⟩
    · have hp := h.parts.append_right [d.1]
      simpa [List.append_assoc] using hp
    · intro f hf
      cases List.mem_append.mp hf with
      | inl hf =>
        obtain ⟨⟨b, hb⟩, he⟩ := h.trouble f hf
        exact ⟨⟨b, by simp [hb]⟩, he⟩
      | inr hf =>
        obtain rfl : f = (d.1, e) := by simpa using hf
        exact ⟨⟨d.2, by simp⟩, trouble, he⟩
    · rw [List.map_append, ← h.failures]
      rfl

theorem exists_progress (tree : Tree) (out : Option RawPath) (todo : List (Job × ByteArray)) :
    ∃ done lost, Progress tree out todo
      ((todo.map fun d => d.1.file d.2).foldl (writeOne out) ⟨tree, [], []⟩) done lost := by
  induction todo using List.reverseRecOn with
  | nil =>
    exact ⟨[], [], List.Perm.refl _, List.Sublist.refl _, by simp, rfl, rfl, Outputs.start tree out⟩
  | append_singleton todo d ih =>
    obtain ⟨done, lost, h⟩ := ih
    rw [List.map_append, List.foldl_append]
    exact progress_writeOne h d

/-- One tree after another, with some files made anew where they are, and nothing else changed. -/
structure Remade (tree : Tree) (chain : Chain) (js : List Job) (final : Tree) : Prop where
  grows : tree.Grows final
  there : ∀ j ∈ js, ∀ b q, j.made tree chain = .ok b → tree.Leads j.path q →
    final.node? q = some (.file b)
  elsewhere : ∀ q, (∀ j ∈ js, ∀ b, j.made tree chain = .ok b → ¬ tree.Leads j.path q) →
    final.node? q = tree.node? q

theorem remade_writeOne {chain : Chain} {js : List Job} (h : Remade tree chain js w.tree)
    (hd : d.1.made tree chain = .ok d.2) :
    Remade tree chain (js ++ [d.1]) (writeOne none w (d.1.file d.2)).tree := by
  obtain ⟨q, bytes, text, new, hl, hq, -⟩ := Job.made_eq_ok_iff.mp hd
  obtain ⟨old, hold⟩ := h.grows.file hq
  have hw := SourceFile.write_in_place (f := d.1.file d.2) rfl (h.grows.leads hl) hold
  have hnode := Tree.node?_setFile_file hold d.2
  rw [writeOne, hw]
  refine ⟨h.grows.trans (Tree.grows_setFile_file hold d.2), ?_, ?_⟩
  · intro j hj b r hb hr
    rw [hnode]
    by_cases hrq : r = q
    · -- The same file found again, perhaps by another path, makes the same bytes.
      subst hrq
      rw [if_pos rfl, Job.made_unique hd hb hl hr]
    · rw [if_neg hrq]
      cases List.mem_append.mp hj with
      | inl hj => exact h.there j hj b r hb hr
      | inr hj =>
        obtain rfl : j = d.1 := by simpa using hj
        exact absurd (hr.unique hl) hrq
  · intro r hr
    have hrq : r ≠ q := fun e => hr d.1 (by simp) d.2 hd (e ▸ hl)
    rw [hnode, if_neg hrq]
    exact h.elsewhere r fun j hj => hr j (by simp [hj])

theorem remade_foldl {chain : Chain} (hmade : ∀ d ∈ todo, d.1.made tree chain = .ok d.2) :
    Remade tree chain (todo.map Prod.fst)
      ((todo.map fun d => d.1.file d.2).foldl (writeOne none) ⟨tree, [], []⟩).tree := by
  induction todo using List.reverseRecOn with
  | nil => exact ⟨Tree.Grows.refl tree, by simp, fun _ _ => rfl⟩
  | append_singleton todo d ih =>
    rw [List.map_append, List.map_append, List.foldl_append]
    exact remade_writeOne (ih fun x hx => hmade x (by simp [hx])) (hmade d (by simp))

/-- The transforms of a command, with globs looked up in a tree. -/
def chainOf (tree : Tree) (settings : Settings) (start : Text) (r : Request) : Chain :=
  let load := Transform.load (Matcher.ofTree tree (r.root.getD settings.root))
  let noCache := Transform.noCache (r.versionToken.getD (settings.token start))
  match r.verb with
  | .load => [load]
  | .noCache => [noCache]
  | .run => [load, noCache]
  | .check => []

theorem perform_eq {r : Request} {settings : Settings} (start : Text) (hv : r.verb ≠ .check)
    (hs : Settings.discover tree r.config = .ok settings) :
    perform tree start r =
      transform tree { settings with root := r.root.getD settings.root } r
        (chainOf tree settings start r) := by
  rw [perform, hs, chainOf]
  cases hr : r.verb with
  | check => exact absurd hr hv
  | _ => rfl

/-- The writing that a batch run ends with. -/
def written (tree : Tree) (chain : Chain) (out : Option RawPath) (js : List Job) : Writing :=
  ((ready tree chain js).map fun d => d.1.file d.2).foldl (writeOne out) ⟨tree, [], []⟩

theorem transform_eq (tree : Tree) (settings : Settings) (r : Request) (chain : Chain) :
    let js := jobs tree settings.extensions r.paths
    let w := written tree chain r.outDir js
    let failures := (unread tree js ++ refused tree chain js).map failure ++ w.failures
    let summary : RunSummary :=
      ⟨chain.name, w.written, failures.map fun f => .ofFault f.1 f.2⟩
    transform tree settings r chain =
      ⟨if summary.passed then 0 else 1, Report.ofRun false r.format summary ++ ['\n'], [],
        w.tree⟩ := by
  rw [transform, sources_eq]
  simp only [run_jobs, unreadable_jobs, List.map_append]
  rfl

/-- What becomes of the files of a batch run, and of the tree. -/
structure Batch (tree : Tree) (chain : Chain) (out : Option RawPath) (js : List Job) (final : Tree)
    (done : List (Job × ByteArray)) (failed : List (Job × Fault)) : Prop where
  /-- Every file is written or fails, as often as it was found. -/
  parts : js.Perm (done.map Prod.fst ++ failed.map Prod.fst)
  order : (done.map Prod.fst).Sublist js
  made : ∀ d ∈ done, d.1.made tree chain = .ok d.2
  unmade : ∀ j ∈ js, ∀ e, j.made tree chain = .error e → (j, e) ∈ failed ∧ ∀ b, (j, b) ∉ done
  faults : ∀ f ∈ failed, f.1.made tree chain = .error f.2 ∨
    (∃ b, f.1.made tree chain = .ok b) ∧ ∃ trouble, f.2 = .unwritable (f.1.destination out) trouble
  outputs : Outputs tree final out done

theorem Batch.exists_written {chain : Chain} {js : List Job} {failed : List (Job × Fault)}
    {q : List RawText} (h : Batch tree chain out js final done failed)
    (hq : final.file? q ≠ tree.file? q) : ∃ d ∈ done, final.Leads (d.1.destination out) q := by
  by_contra hn
  exact hq (h.outputs.elsewhere q fun d hd hl => hn ⟨d, hd, hl⟩)

theorem exists_batch (tree : Tree) (chain : Chain) (out : Option RawPath) (js : List Job) :
    ∃ done failed, Batch tree chain out js (written tree chain out js).tree done failed ∧
      (written tree chain out js).written = (done.map fun d => d.1.destination out) ∧
      (unread tree js ++ refused tree chain js).map failure ++
        (written tree chain out js).failures = failed.map failure := by
  obtain ⟨done, lost, h⟩ := exists_progress tree out (ready tree chain js)
  have hmade : ∀ d ∈ done, d.1.made tree chain = .ok d.2 := fun d hd =>
    ((mem_ready tree chain js).mp (h.sublist.subset hd)).2
  have happend : ∀ {β : Type} (f : Job × Fault → β),
      (unread tree js ++ refused tree chain js ++ lost).map f =
        (unread tree js ++ refused tree chain js).map f ++ lost.map f := fun f => List.map_append
  refine ⟨done, unread tree js ++ refused tree chain js ++ lost, ⟨?_, ?_, hmade, ?_, ?_, h.outputs⟩,
    h.written, ?_⟩
  · have hp := (perm_jobs tree chain js).trans (h.parts.append_right _)
    rw [List.append_assoc] at hp
    rw [happend]
    exact hp.trans (List.perm_append_comm.append_left _)
  · exact (h.sublist.map Prod.fst).trans (sublist_ready tree chain js)
  · intro j hj e he
    refine ⟨List.mem_append_left lost ((mem_unready tree chain js).mpr ⟨hj, he⟩), fun b hb => ?_⟩
    have ho := hmade _ hb
    rw [he] at ho
    cases ho
  · intro f hf
    cases List.mem_append.mp hf with
    | inl hf => exact Or.inl ((mem_unready tree chain js).mp hf).2
    | inr hf =>
      obtain ⟨⟨b, hb⟩, ht⟩ := h.trouble f hf
      exact Or.inr ⟨⟨b, ((mem_ready tree chain js).mp hb).2⟩, ht⟩
  · rw [happend, ← h.failures]
    rfl

theorem remade_written (tree : Tree) (chain : Chain) (js : List Job) :
    Remade tree chain js (written tree chain none js).tree := by
  have hmade : ∀ d ∈ ready tree chain js, d.1.made tree chain = .ok d.2 := fun d hd =>
    ((mem_ready tree chain js).mp hd).2
  have h := remade_foldl hmade
  refine ⟨h.grows, fun j hj b q hb => ?_, fun q hq => h.elsewhere q ?_⟩
  · exact h.there j (List.mem_map.mpr ⟨(j, b), (mem_ready tree chain js).mpr ⟨hj, hb⟩, rfl⟩) b q hb
  · intro j hj
    obtain ⟨d, hd, rfl⟩ := List.mem_map.mp hj
    exact hq d.1 ((mem_ready tree chain js).mp hd).1

/-- Files made anew where they are do not depend on the order in which they are found, or on how
often. -/
theorem Remade.unique {chain : Chain} {js js' : List Job} {final' : Tree}
    (h : Remade tree chain js final) (h' : Remade tree chain js' final')
    (hj : ∀ j, j ∈ js ↔ j ∈ js') (q : List RawText) : final'.node? q = final.node? q := by
  by_cases hq : ∃ j ∈ js, ∃ b, j.made tree chain = .ok b ∧ tree.Leads j.path q
  · obtain ⟨j, hmem, b, hb, hl⟩ := hq
    rw [h.there j hmem b q hb hl, h'.there j ((hj j).mp hmem) b q hb hl]
  · have hn : ∀ j ∈ js, ∀ b, j.made tree chain = .ok b → ¬ tree.Leads j.path q :=
      fun j hmem b hb hl => hq ⟨j, hmem, b, hb, hl⟩
    rw [h.elsewhere q hn, h'.elsewhere q fun j hmem => hn j ((hj j).mpr hmem)]

/-- The report of a batch run. -/
def summaryOf (chain : Chain) (out : Option RawPath) (done : List (Job × ByteArray))
    (failed : List (Job × Fault)) : RunSummary :=
  ⟨chain.name, done.map fun d => d.1.destination out,
    failed.map fun f => .ofFault f.1.path f.2⟩

/-- A run without failures passes. -/
theorem transform_passed {tree : Tree} {chain : Chain} {js : List Job} (settings : Settings)
    (r : Request) (hjs : jobs tree settings.extensions r.paths = js)
    (hmade : ∀ j ∈ js, ∃ b, j.made tree chain = .ok b)
    (hw : (written tree chain r.outDir js).failures = []) :
    (transform tree settings r chain).exitCode = 0 ∧
      (transform tree settings r chain).tree = (written tree chain r.outDir js).tree := by
  have hnone : unread tree js ++ refused tree chain js = [] := by
    refine List.eq_nil_iff_forall_not_mem.mpr fun f hf => ?_
    obtain ⟨hmem, he⟩ := (mem_unready tree chain js).mp hf
    obtain ⟨b, hb⟩ := hmade f.1 hmem
    rw [he] at hb
    cases hb
  rw [transform_eq, hjs]
  simp [hnone, hw, RunSummary.passed]

theorem run_eq_perform {tree : Tree} (start : Text) {args : List Text} {r : Request}
    (ha : read args = .perform r) : run tree start args = perform tree start r := by
  rw [run, ha]

theorem exists_performed {tree : Tree} (start : Text) {r : Request} {settings : Settings}
    (hv : r.verb ≠ .check) (hs : Settings.discover tree r.config = .ok settings) :
    let chain := chainOf tree settings start r
    let js := jobs tree settings.extensions r.paths
    let o := perform tree start r
    ∃ done failed, Batch tree chain r.outDir js o.tree done failed ∧
      o.tree = (written tree chain r.outDir js).tree ∧
      o.output = Report.ofRun false r.format (summaryOf chain r.outDir done failed) ++ ['\n'] ∧
      o.exitCode = if failed.isEmpty then 0 else 1 := by
  intro chain js o
  obtain ⟨done, failed, hb, hw, hf⟩ := exists_batch tree chain r.outDir js
  have hrecords : (failed.map failure).map (fun f => FailureRecord.ofFault f.1 f.2) =
      failed.map fun f => .ofFault f.1.path f.2 := List.map_map
  have ho : o = _ := (perform_eq start hv hs).trans (transform_eq _ _ _ _)
  dsimp only [chain, js] at hw hf
  simp only [hw, hf, hrecords, RunSummary.passed, List.isEmpty_map] at ho
  rw [ho]
  exact ⟨done, failed, hb, rfl, rfl, rfl⟩

/-- A batch run makes every file from the tree as it was, writes those that are made, and changes no
other file. Its request may hold paths that no argument spells, in any bytes. -/
theorem run_batch (tree : Tree) (start : Text) {r : Request} {settings : Settings}
    (hv : r.verb ≠ .check) (hs : Settings.discover tree r.config = .ok settings) :
    let chain := chainOf tree settings start r
    let js := jobs tree settings.extensions r.paths
    let o := perform tree start r
    (∀ args, read args = .perform r → run tree start args = o) ∧
    ∃ done failed,
      let summary := summaryOf chain r.outDir done failed
      Batch tree chain r.outDir js o.tree done failed ∧
      (∀ j ∈ js, j.Placed r.outDir) ∧
      o.output = Report.ofRun false r.format summary ++ ['\n'] ∧
      summary.written.length + summary.failures.length = js.length ∧
      o.exitCode = (if failed.isEmpty then 0 else 1) ∧
      (r.outDir = none → Remade tree chain js o.tree ∧
        ∀ paths, (∀ p, p ∈ paths ↔ p ∈ r.paths) → ∀ q,
          (perform tree start { r with paths := paths }).tree.node? q = o.tree.node? q) := by
  intro chain js o
  obtain ⟨done, failed, hb, htree, hout, hexit⟩ := exists_performed start hv hs
  refine ⟨fun args => run_eq_perform start, done, failed, hb,
    fun j hj => placed_of_mem_jobs hj r.outDir, hout, ?_, hexit, fun hnone => ?_⟩
  · have hl := hb.parts.length_eq
    simpa [summaryOf] using hl.symm
  · have hr : Remade tree chain js o.tree := by
      rw [hnone] at htree
      exact htree ▸ remade_written tree chain js
    refine ⟨hr, fun paths hp => ?_⟩
    have hr' := remade_written tree chain (jobs tree settings.extensions paths)
    have htree' : (perform tree start { r with paths := paths }).tree =
        (written tree chain none (jobs tree settings.extensions paths)).tree := by
      rw [perform_eq (r := { r with paths := paths }) start hv hs, transform_eq]
      simp only [hnone]
      rfl
    rw [htree']
    refine hr.unique hr' fun j => ?_
    simp only [js, mem_jobs, hp]

/-- Two pages of one name in different folders, and one that cannot be versioned. -/
def pages : Tree :=
  ((((Tree.empty.setFolder [Text.bytes ['a']]).setFolder [Text.bytes ['b']]).setFile
    [Text.bytes ['a'], Text.bytes "x.js"] (Text.encode "//@NoCache()\na/1.js\n")).setFile
    [Text.bytes ['b'], Text.bytes "x.js"] (Text.encode "//@NoCache()\nb/2.js\n")).setFile
    [Text.bytes ['b'], Text.bytes "y.js"] (Text.encode "//@NoCache()\nb\n")

/-- The pages by their paths and folders. -/
def firstPage : Job := ⟨Path.raw ⟨"a/x.js"⟩, Path.raw ⟨['a']⟩⟩

def secondPage : Job := ⟨Path.raw ⟨"b/x.js"⟩, Path.raw ⟨['b']⟩⟩

def brokenPage : Job := ⟨Path.raw ⟨"/b/y.js"⟩, Path.raw ⟨"/b"⟩⟩

theorem made_pages :
    firstPage.made pages [.noCache ['7']] = .ok (Text.encode "a/1.js?v=7\n") ∧
      secondPage.made pages [.noCache ['7']] = .ok (Text.encode "b/2.js?v=7\n") ∧
      brokenPage.made pages [.noCache ['7']] = .error (.unversionable ['b']) := by
  have hfirst : pages.read firstPage.path = .ok (Text.encode "//@NoCache()\na/1.js\n") := rfl
  have hsecond : pages.read secondPage.path = .ok (Text.encode "//@NoCache()\nb/2.js\n") := rfl
  have hbroken : pages.read brokenPage.path = .ok (Text.encode "//@NoCache()\nb\n") := rfl
  have ha : Chain.apply [.noCache ['7']] "//@NoCache()\na/1.js\n" =
      .ok "a/1.js?v=7\n".toList := by decide +kernel
  have hb : Chain.apply [.noCache ['7']] "//@NoCache()\nb/2.js\n" =
      .ok "b/2.js?v=7\n".toList := by decide +kernel
  have hc : Chain.apply [.noCache ['7']] "//@NoCache()\nb\n" = .error (.unversionable ['b']) := by
    decide +kernel
  refine ⟨?_, ?_, ?_⟩
  · simp only [Job.made, hfirst, Except.mapError, bind, Except.bind, Text.decode?_encode, ha,
      Except.map]
  · simp only [Job.made, hsecond, Except.mapError, bind, Except.bind, Text.decode?_encode, hb,
      Except.map]
  · simp only [Job.made, hbroken, Except.mapError, bind, Except.bind, Text.decode?_encode, hc,
      Except.map]

def outFolder : RawPath := Path.raw ⟨"out"⟩

def pagesArgs : List Text :=
  ["no-cache", "--version-token", "7", "--out-dir", "out", "a/x.js", "b/x.js"]

def pagesRequest : Request :=
  ⟨.noCache, [firstPage.path, secondPage.path], none, none, .text, some outFolder, some ['7'], true⟩

theorem read_pagesArgs : read pagesArgs = .perform pagesRequest := by decide

theorem discover_pages : Settings.discover pages none = .ok .default := rfl

/-- The pages with a file in the output folder. -/
def pagesWith (b : ByteArray) : Tree :=
  (pages.setFolder [Text.bytes "out"]).setFile [Text.bytes "out", Text.bytes "x.js"] b

def outPage : RawPath := Path.raw ⟨"out/x.js"⟩

theorem write_firstPage (b : ByteArray) :
    (firstPage.file b).write (some outFolder) pages = .ok (some outPage, pagesWith b) := by
  have hm : pages.makeFolders outFolder = .ok (pages.setFolder [Text.bytes "out"]) := rfl
  have hw : (pages.setFolder [Text.bytes "out"]).write outPage b = .ok (pagesWith b) := rfl
  have hd : (firstPage.file b).destination (some outFolder) = outPage := rfl
  exact SourceFile.write_of_parent rfl hd rfl hm hw

theorem write_secondPage (b c : ByteArray) :
    (secondPage.file c).write (some outFolder) (pagesWith b) =
      .ok (some outPage, pagesWith c) := by
  have hm : (pagesWith b).makeFolders outFolder = .ok (pagesWith b) := rfl
  have hw : (pagesWith b).write outPage c = .ok (pagesWith c) := rfl
  have hd : (secondPage.file c).destination (some outFolder) = outPage := rfl
  exact SourceFile.write_of_parent rfl hd rfl hm hw

theorem written_pages : written pages [.noCache ['7']] (some outFolder) [firstPage, secondPage] =
    ⟨pagesWith (Text.encode "b/2.js?v=7\n"), [outPage, outPage], []⟩ := by
  obtain ⟨ha, hb, -⟩ := made_pages
  have hready : ready pages [.noCache ['7']] [firstPage, secondPage] =
      [(firstPage, Text.encode "a/1.js?v=7\n"), (secondPage, Text.encode "b/2.js?v=7\n")] := by
    simp [ready, ha, hb, Except.toOption]
  rw [written, hready]
  simp only [List.map_cons, List.map_nil, List.foldl_cons, List.foldl_nil, writeOne,
    write_firstPage, write_secondPage, List.nil_append, List.cons_append]

theorem jobs_pages : jobs pages Settings.defaultExtensions pagesRequest.paths =
    [firstPage, secondPage] := rfl

theorem run_pages : (run pages ['0'] pagesArgs).exitCode = 0 ∧
    (run pages ['0'] pagesArgs).tree = pagesWith (Text.encode "b/2.js?v=7\n") := by
  have hmade : ∀ j ∈ [firstPage, secondPage], ∃ b, j.made pages [.noCache ['7']] = .ok b := by
    simp [made_pages]
  have hw := written_pages
  obtain ⟨hexit, htree⟩ := transform_passed .default pagesRequest jobs_pages hmade
    (congrArg Writing.failures hw)
  rw [run_eq_perform ['0'] read_pagesArgs, perform_eq ['0'] (by decide) discover_pages]
  exact ⟨hexit, htree.trans (congrArg Writing.tree hw)⟩

/-- Files with what was made of them are the same if the files are. -/
theorem eq_of_made {chain : Chain} {made made' : List (Job × ByteArray)}
    (h : ∀ d ∈ made, d.1.made tree chain = .ok d.2)
    (h' : ∀ d ∈ made', d.1.made tree chain = .ok d.2)
    (hj : made.map Prod.fst = made'.map Prod.fst) : made = made' := by
  induction made generalizing made' with
  | nil => exact (List.map_eq_nil_iff.mp hj.symm).symm
  | cons d made ih =>
    obtain ⟨d', made', rfl, hfst, htail⟩ := List.map_eq_cons_iff.mp hj.symm
    rw [List.forall_mem_cons] at h h'
    have hsnd : d.2 = d'.2 := by
      have hd := h'.1
      rw [hfst, h.1] at hd
      exact Except.ok.inj hd
    rw [Prod.ext hfst.symm hsnd, ih h.2 h'.2 htail.symm]

theorem leads_firstPage : pages.Leads firstPage.path [Text.bytes ['a'], Text.bytes "x.js"] := rfl

def inPlaceArgs : List Text := ["no-cache", "--version-token", "7", "a/x.js", "/b/y.js"]

def inPlaceRequest : Request :=
  ⟨.noCache, [firstPage.path, brokenPage.path], none, none, .text, none, some ['7'], true⟩

theorem read_inPlaceArgs : read inPlaceArgs = .perform inPlaceRequest := by decide

theorem done_of_batch {done : List (Job × ByteArray)}
    (h : Batch pages [.noCache ['7']] (some outFolder) [firstPage, secondPage] final done []) :
    done = [(firstPage, Text.encode "a/1.js?v=7\n"), (secondPage, Text.encode "b/2.js?v=7\n")] := by
  obtain ⟨hfirst, hsecond, -⟩ := made_pages
  have hlength : (done.map Prod.fst).length = 2 := by simpa using h.parts.length_eq.symm
  refine eq_of_made h.made ?_ (h.order.eq_of_length hlength)
  exact List.forall_mem_cons.mpr ⟨hfirst, List.forall_mem_singleton.mpr hsecond⟩

theorem done_of_batch_inPlace {done : List (Job × ByteArray)} {failed : List (Job × Fault)}
    (h : Batch pages [.noCache ['7']] none [firstPage, brokenPage] final done failed)
    (hr : Remade pages [.noCache ['7']] [firstPage, brokenPage] final) :
    done = [(firstPage, Text.encode "a/1.js?v=7\n")] ∧
      failed = [(brokenPage, .unversionable ['b'])] := by
  obtain ⟨hfirst, -, hbroken⟩ := made_pages
  -- The first page was written, for its bytes are not those from before the run.
  have hchanged : final.file? [Text.bytes ['a'], Text.bytes "x.js"] ≠
      pages.file? [Text.bytes ['a'], Text.bytes "x.js"] := by
    intro hkept
    rw [Tree.file?, hr.there firstPage List.mem_cons_self _ _ hfirst leads_firstPage] at hkept
    have hsame := congrArg Text.decode? (Option.some.inj hkept)
    rw [Text.decode?_encode, Text.decode?_encode] at hsame
    revert hsame
    decide
  obtain ⟨d, hd, -⟩ := h.exists_written hchanged
  have hbad := (h.unmade brokenPage (by simp) _ hbroken).1
  have hlength : 2 = done.length + failed.length := by simpa using h.parts.length_eq
  have hone : done.length = 1 ∧ failed.length = 1 := by
    have hdone := List.length_pos_of_mem hd
    have hfailed := List.length_pos_of_mem hbad
    omega
  obtain ⟨_, rfl⟩ := List.length_eq_one_iff.mp hone.1
  obtain ⟨_, rfl⟩ := List.length_eq_one_iff.mp hone.2
  obtain rfl := List.mem_singleton.mp hd
  obtain rfl := List.mem_singleton.mp hbad
  have hfst : d.1 = firstPage := by
    have hmem : d.1 = firstPage ∨ d.1 = brokenPage := by
      simpa using h.order.subset List.mem_cons_self
    refine hmem.resolve_right fun he => ?_
    have hmade := h.made d List.mem_cons_self
    rw [he, hbroken] at hmade
    cases hmade
  exact ⟨eq_of_made h.made (List.forall_mem_singleton.mpr hfirst) (by simp [hfst]), rfl⟩

/-- Both pages are written to the output folder, the second over the first. Written in its place, a
page changes, and one that cannot be versioned is reported and stays as it is. -/
theorem run_batch_pages :
    (let o := run pages ['0'] pagesArgs
      let done :=
        [(firstPage, Text.encode "a/1.js?v=7\n"), (secondPage, Text.encode "b/2.js?v=7\n")]
      Batch pages [.noCache ['7']] (some outFolder) [firstPage, secondPage] o.tree done [] ∧
      (∀ j ∈ [firstPage, secondPage], j.Placed (some outFolder)) ∧
      o.output = Report.ofRun false .text ⟨"no-cache", [outPage, outPage], []⟩ ++ ['\n'] ∧
      o.exitCode = 0) ∧
    (let o := run pages ['0'] inPlaceArgs
      let done := [(firstPage, Text.encode "a/1.js?v=7\n")]
      let failed := [(brokenPage, .unversionable ['b'])]
      Batch pages [.noCache ['7']] none [firstPage, brokenPage] o.tree done failed ∧
      o.output = Report.ofRun false .text ⟨"no-cache", [firstPage.path],
        [.ofFault brokenPage.path (.unversionable ['b'])]⟩ ++ ['\n'] ∧
      o.exitCode = 1 ∧ Remade pages [.noCache ['7']] [firstPage, brokenPage] o.tree ∧
      ∀ q, (perform pages ['0'] { inPlaceRequest with
        paths := [brokenPage.path, firstPage.path, firstPage.path] }).tree.node? q =
          o.tree.node? q) := by
  constructor
  · obtain ⟨hrun, done, failed, hb, hplaced, hout, -, hexit, -⟩ :=
      run_batch pages ['0'] (r := pagesRequest) (by decide) discover_pages
    rw [← hrun _ read_pagesArgs] at hb hout hexit
    rw [run_pages.1] at hexit
    obtain rfl : failed = [] := by
      by_contra hne
      simp [hne] at hexit
    obtain rfl := done_of_batch hb
    exact ⟨hb, hplaced, hout, run_pages.1⟩
  · obtain ⟨hrun, done, failed, hb, -, hout, -, hexit, hplace⟩ :=
      run_batch pages ['0'] (r := inPlaceRequest) (by decide) discover_pages
    rw [← hrun _ read_inPlaceArgs] at hb hout hexit hplace
    obtain ⟨hremade, horder⟩ := hplace rfl
    obtain ⟨rfl, rfl⟩ := done_of_batch_inPlace hb hremade
    exact ⟨hb, hout, hexit, hremade, horder _ fun p => by simp [inPlaceRequest, or_comm]⟩

end SourceMarks.CommandLine
