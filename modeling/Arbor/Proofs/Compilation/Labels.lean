import Arbor.Compilation
import Arbor.Proofs.Constraint.Labels
import Mathlib.Algebra.Group.Nat.Defs
import Mathlib.Data.List.Forall2

/-!
# Labels of objects

A mapping names the labels that it waits for.  They are resolved after the constraint has been
lowered, to the indices that its labelled statements were given.  So the indices in a mapping and
those in the constraint of an object mean the same names.

* `Job.LabelsAgree`: what it means for the labels of an object to agree with those of the program.
* `Job.labelsAgree_of_compile`: they do, and a label that the constraint does not have is a problem.
-/

namespace Arbor

open Step

/-! ## Numbers for names -/

/-- A function that keeps the members of a list apart keeps their first occurrences. -/
lemma eraseDups_map {α β : Type} [BEq α] [LawfulBEq α] [BEq β] [LawfulBEq β] {f : α → β}
    {as : List α} (hf : ∀ a ∈ as, ∀ b ∈ as, f a = f b → a = b) :
    (as.map f).eraseDups = as.eraseDups.map f := by
  induction as using List.reverseRecOn with
  | nil => rfl
  | append_singleton as a ih =>
    have hmem : f a ∈ as.map f ↔ a ∈ as := by
      constructor
      · intro h
        obtain ⟨b, hb, hfb⟩ := List.mem_map.1 h
        rwa [← hf b (by simp [hb]) a (by simp) hfb]
      · exact List.mem_map_of_mem
    have hrest := ih fun b hb c hc => hf b (by simp [hb]) c (by simp [hc])
    rw [List.map_append, List.map_singleton, eraseDups_snoc, eraseDups_snoc, hrest]
    by_cases ha : a ∈ as
    · rw [if_pos ha, if_pos (hmem.2 ha)]
    · rw [if_neg ha, if_neg (mt hmem.1 ha), List.map_append, List.map_singleton]

lemma map_idxOf_self {α : Type} [DecidableEq α] {as : List α} (h : as.Nodup) :
    as.map as.idxOf = List.range as.length := by
  refine List.ext_getElem (by simp) fun i hi _ => ?_
  rw [List.getElem_map, List.getElem_range, h.idxOf_getElem]

lemma exists_of_forall₂ {α β : Type} {R : α → β → Prop} {as : List α} {bs : List β} {b : β}
    (h : List.Forall₂ R as bs) (hb : b ∈ bs) : ∃ a ∈ as, R a b := by
  induction h with
  | nil => cases hb
  | @cons a b' as bs hab _ ih =>
    rcases List.mem_cons.1 hb with rfl | hmem
    · exact ⟨a, List.mem_cons_self .., hab⟩
    · obtain ⟨a', ha', hrel⟩ := ih hmem
      exact ⟨a', List.mem_cons_of_mem _ ha', hrel⟩

/-- Indices are kept as they are, as long as they fit. -/
lemma Tree.labelOf_eq {i : Nat} (h : i < 2 ^ 63) : labelOf i = some (i : Int) := by
  rw [labelOf, Int64.toInt_ofNat_of_lt h]

namespace Job

variable {job : Job}

/-! ## Resolution -/

lemma label_eq_ok_iff {labels : Pool String} {name : Ident} {i : Nat} :
    label labels name = .ok i ↔ labels.entries[i]? = some name.name := by
  rw [← Pool.idxOf?_eq_some_iff]
  unfold label
  split
  · next j hj => simp [hj, pure, Except.pure]
  · next hnone => simp [hnone, throw, throwThe, MonadExceptOf.throw]

lemma labelIndices_eq_ok {labels : Pool String} {names : List Ident} {is : List Nat}
    (h : labelIndices labels names = .ok is) :
    List.Forall₂ (fun i name => labels.entries[i]? = some name.name) is names := by
  induction names generalizing is with
  | nil =>
    cases h
    exact .nil
  | cons name names ih =>
    rw [labelIndices] at h
    cases hfirst : label labels name with
    | error p =>
      rw [hfirst] at h
      cases h
    | ok i =>
      cases hrest : labelIndices labels names with
      | error p =>
        rw [hfirst, hrest] at h
        cases h
      | ok is' =>
        rw [hfirst, hrest] at h
        cases h
        exact .cons (label_eq_ok_iff.1 hfirst) (ih hrest)

/-- Mappings keep their names and order, and their labels are resolved. -/
lemma ensures_compileEach_labels (labels : Pool String) (ms : List MappingDef)
    (constants : Pool Constant) :
    Ensures (job.compileEach labels ms) constants
      (fun mappings _ => List.Forall₂ (fun (m : Mapping) (d : MappingDef) =>
        m.name = d.ident.name ∧
          List.Forall₂ (fun i name => labels.entries[i]? = some name.name) m.labels d.labels)
        mappings ms)
      fun _ _ => True := by
  induction ms generalizing constants with
  | nil => exact ensures_pure .nil
  | cons d ds ih =>
    refine ensures_lift_bind (fun _ _ => trivial) fun is his => ?_
    refine ensures_any_bind (fun _ _ => trivial) fun code constants₁ => ?_
    refine (ih constants₁).bind (fun _ _ _ => trivial) fun mappings _ hmappings => ?_
    exact ensures_pure (.cons ⟨rfl, labelIndices_eq_ok his⟩ hmappings)

/-! ## Agreement -/

/-- The labels of an object mean the names that the program has given them. -/
structure LabelsAgree (job : Job) (o : Object) : Prop where
  /-- Reading the tree from its start, the indices of labels are met in order. -/
  order : o.constraint.labels.eraseDups
    = (List.range job.labelNames.eraseDups.length).map fun (i : Nat) => some (i : Int)
  /-- There is one labelled node for each labelled statement. -/
  length_eq : o.constraint.labels.length = job.labelNames.length
  /-- Two labelled nodes carry one index if their statements carry one name, and only then. -/
  index_eq_iff : ∀ {i j : Nat}, i < job.labelNames.length → j < job.labelNames.length →
    (o.constraint.labels[i]? = o.constraint.labels[j]? ↔
      job.labelNames[i]? = job.labelNames[j]?)
  /-- The mappings are those of the file.  Each of their labels is the name of a statement, and its
  index is found in the nodes of statements with that name and in no others. -/
  mappings : List.Forall₂ (fun (m : Mapping) (d : MappingDef) => m.name = d.ident.name ∧
      List.Forall₂ (fun (index : Nat) (name : Ident) => name.name ∈ job.labelNames ∧
        ∀ i : Nat, o.constraint.labels[i]? = some (some (index : Int)) ↔
          job.labelNames[i]? = some name.name) m.labels d.labels)
    o.mappings job.file.mappings
  /-- Some mapping is unconditional. -/
  always : ∃ m ∈ o.mappings, m.labels = []

/-- What an object was made of. -/
lemma compile_eq_ok {o : Object} (h : job.compile = .ok o) :
    ∃ labels constants, job.lowerMain {} = .ok o.constraint labels ∧
      job.compileMappings labels {} = .ok o.mappings constants := by
  unfold compile at h
  split at h
  · cases h
  · next hlower =>
    split at h
    · cases h
    · next hmaps =>
      cases h
      exact ⟨_, _, hlower, hmaps⟩

lemma compileMappings_eq_ok {labels : Pool String} {constants constants' : Pool Constant}
    {mappings : List Mapping} (h : job.compileMappings labels constants = .ok mappings constants') :
    (∃ d ∈ job.file.mappings, d.labels = []) ∧
      job.compileEach labels job.file.mappings constants = .ok mappings constants' := by
  by_cases hnone : job.file.mappings.isEmpty = true
  · rw [compileMappings, if_pos hnone] at h
    cases h
  · by_cases hall : (job.file.mappings.all fun m => !m.labels.isEmpty) = true
    · rw [compileMappings, if_neg hnone, if_pos hall] at h
      cases h
    · rw [compileMappings, if_neg hnone, if_neg hall] at h
      exact ⟨by simpa using hall, h⟩

/-- The index of a name tells it from the others. -/
lemma labelOf_idxOf_eq_iff {names : List String} (hfit : names.eraseDups.length ≤ 2 ^ 63)
    {a b : String} (ha : a ∈ names) (hb : b ∈ names) :
    Tree.labelOf (names.eraseDups.idxOf a) = Tree.labelOf (names.eraseDups.idxOf b) ↔ a = b := by
  have hlt : ∀ {c}, c ∈ names → names.eraseDups.idxOf c < 2 ^ 63 := fun hc =>
    Nat.lt_of_lt_of_le (List.idxOf_lt_length_of_mem (List.mem_eraseDups.2 hc)) hfit
  rw [Tree.labelOf_eq (hlt ha), Tree.labelOf_eq (hlt hb), Option.some_inj, Int.natCast_inj,
    List.idxOf_inj (List.mem_eraseDups.2 ha)]

/-- What the numbering of names says about the nodes of the tree and the labels of mappings. -/
lemma labelsAgree_of_numbers {o : Object} {labels : Pool String}
    (hfit : job.labelNames.eraseDups.length ≤ 2 ^ 63)
    (hentries : labels.entries = job.labelNames.eraseDups)
    (htree : o.constraint.labels = job.labelNames.map fun name =>
      Tree.labelOf (job.labelNames.eraseDups.idxOf name))
    (hmaps : List.Forall₂ (fun (m : Mapping) (d : MappingDef) => m.name = d.ident.name ∧
      List.Forall₂ (fun i name => labels.entries[i]? = some name.name) m.labels d.labels)
      o.mappings job.file.mappings)
    (halways : ∃ d ∈ job.file.mappings, d.labels = []) : job.LabelsAgree o where
  order := by
    have hinj : ∀ a ∈ job.labelNames, ∀ b ∈ job.labelNames,
        Tree.labelOf (job.labelNames.eraseDups.idxOf a)
          = Tree.labelOf (job.labelNames.eraseDups.idxOf b) → a = b :=
      fun a ha b hb => (labelOf_idxOf_eq_iff hfit ha hb).1
    calc o.constraint.labels.eraseDups
        = job.labelNames.eraseDups.map fun name =>
            Tree.labelOf (job.labelNames.eraseDups.idxOf name) := by
          rw [htree, eraseDups_map hinj]
      _ = (List.range job.labelNames.eraseDups.length).map Tree.labelOf := by
          rw [← map_idxOf_self (nodup_eraseDups job.labelNames), List.map_map]
          rfl
      _ = (List.range job.labelNames.eraseDups.length).map fun (i : Nat) => some (i : Int) :=
          List.map_congr_left fun i hi =>
            Tree.labelOf_eq (Nat.lt_of_lt_of_le (List.mem_range.1 hi) hfit)
  length_eq := by rw [htree, List.length_map]
  index_eq_iff := by
    intro i j hi hj
    rw [htree, List.getElem?_map, List.getElem?_map, List.getElem?_eq_getElem hi,
      List.getElem?_eq_getElem hj, Option.map_some, Option.map_some, Option.some_inj,
      Option.some_inj]
    exact labelOf_idxOf_eq_iff hfit (List.getElem_mem hi) (List.getElem_mem hj)
  mappings := by
    refine hmaps.imp fun m d ⟨hname, hlabels⟩ => ⟨hname, hlabels.imp fun index name hindex => ?_⟩
    rw [hentries] at hindex
    have hmem : name.name ∈ job.labelNames := List.mem_eraseDups.1 (List.mem_of_getElem? hindex)
    have hidx : job.labelNames.eraseDups.idxOf name.name = index := by
      obtain ⟨hlt, hget⟩ := List.getElem?_eq_some_iff.1 hindex
      rw [← hget, (nodup_eraseDups job.labelNames).idxOf_getElem]
    have hlt : index < 2 ^ 63 := Nat.lt_of_lt_of_le (List.getElem?_eq_some_iff.1 hindex).1 hfit
    refine ⟨hmem, fun i => ?_⟩
    rw [htree, List.getElem?_map, ← Tree.labelOf_eq hlt, ← hidx]
    constructor
    · intro h
      obtain ⟨a, ha, hlabel⟩ := Option.map_eq_some_iff.1 h
      rw [ha, (labelOf_idxOf_eq_iff hfit (List.mem_of_getElem? ha) hmem).1 hlabel]
    · intro h
      rw [h, Option.map_some]
  always := by
    obtain ⟨d, hd, hnone⟩ := halways
    obtain ⟨m, hm, -, hlabels⟩ := exists_of_forall₂ hmaps hd
    rw [hnone] at hlabels
    exact ⟨m, hm, List.forall₂_nil_right_iff.1 hlabels⟩

/-- **The labels of mappings are those of the constraint.**  In an object the labelled nodes are
numbered in the order in which names are first met, and each label of a mapping is the number of its
name.  A mapping that names no labelled statement is a problem.  Indices are 64-bit integers, so
there must not be more names than these can count. -/
theorem labelsAgree_of_compile (job : Job) :
    (∀ o, job.compile = .ok o → job.labelNames.eraseDups.length ≤ 2 ^ 63 → job.LabelsAgree o) ∧
      ((∃ d ∈ job.file.mappings, ∃ name ∈ d.labels, name.name ∉ job.labelNames) →
        ∃ p, job.compile = .error p) := by
  constructor
  · intro o hcompile hfit
    obtain ⟨labels, constants, hlower, hmaps⟩ := compile_eq_ok hcompile
    obtain ⟨hentries, htree⟩ := labels_of_lowerMain hlower
    obtain ⟨halways, heach⟩ := compileMappings_eq_ok hmaps
    exact labelsAgree_of_numbers hfit hentries htree
      ((ensures_compileEach_labels labels _ _).of_ok heach) halways
  · rintro ⟨d, hd, name, hname, hmissing⟩
    cases hcompile : job.compile with
    | error p => exact ⟨p, rfl⟩
    | ok o =>
      obtain ⟨labels, constants, hlower, hmaps⟩ := compile_eq_ok hcompile
      obtain ⟨hentries, -⟩ := labels_of_lowerMain hlower
      obtain ⟨-, heach⟩ := compileMappings_eq_ok hmaps
      have hall := (ensures_compileEach_labels labels _ _).of_ok heach
      obtain ⟨m, -, -, hlabels⟩ := exists_of_forall₂ hall hd
      obtain ⟨i, -, hi⟩ := exists_of_forall₂ hlabels hname
      rw [hentries] at hi
      exact absurd (List.mem_eraseDups.1 (List.mem_of_getElem? hi)) hmissing

/-- A labelled statement that expands a constraint type, in which another label stands, and one that
carries this other label itself. -/
def ofLabels (labels : List Ident) : Job where
  file :=
    { definitions :=
        [.main ⟨⟨"main", .nowhere⟩, .all,
          [.apply (some ⟨"outer", .nowhere⟩) ⟨⟨"some", .nowhere⟩, []⟩ ⟨⟨"Branch", .nowhere⟩, []⟩,
            .select (some ⟨"inner", .nowhere⟩) ⟨⟨"some", .nowhere⟩, []⟩ ⟨"leaf", .nowhere⟩]⟩,
          .mapping ⟨⟨"waits", .nowhere⟩, labels, []⟩,
          .mapping ⟨⟨"runs", .nowhere⟩, [], []⟩]
      includes :=
        [⟨[.predicate ⟨⟨"some", .nowhere⟩, [], .all, []⟩,
          .constraintType ⟨⟨"Branch", .nowhere⟩, ⟨"branch", .nowhere⟩, [], .all,
            [.select (some ⟨"inner", .nowhere⟩) ⟨⟨"some", .nowhere⟩, []⟩
              ⟨"leaf", .nowhere⟩]⟩], []⟩] }

/-- The statement that is met first has the first index, also if it is named last. -/
theorem labelsAgree_ofLabels :
    ∃ o, (ofLabels [⟨"inner", .nowhere⟩, ⟨"outer", .nowhere⟩]).compile = .ok o ∧
      o.constraint.labels = [some 0, some 1, some 1] ∧ o.mappings.map (·.labels) = [[1, 0], []] ∧
      (ofLabels [⟨"inner", .nowhere⟩, ⟨"outer", .nowhere⟩]).LabelsAgree o ∧
      ∃ p, (ofLabels [⟨"other", .nowhere⟩]).compile = .error p := by
  have hcompile : (ofLabels [⟨"inner", .nowhere⟩, ⟨"outer", .nowhere⟩]).compile = .ok
      ⟨Object.currentVersion, .node .all
        [.labelled (some 0) (.node .select [.leaf (.str "branch"), .node .all [],
          .labelled (some 1) (.node .select [.leaf (.str "leaf"), .node .all []])]),
          .labelled (some 1) (.node .select [.leaf (.str "leaf"), .node .all []])],
        [], [⟨"waits", [1, 0], []⟩, ⟨"runs", [], []⟩]⟩ := by
    decide +kernel
  refine ⟨_, hcompile, by decide, by decide, (labelsAgree_of_compile _).1 _ hcompile ?_,
    (labelsAgree_of_compile _).2 ?_⟩
  · decide +kernel
  · refine ⟨⟨⟨"waits", .nowhere⟩, [⟨"other", .nowhere⟩], []⟩, by simp [ofLabels, File.mappings,
      Definition.mapping?], ⟨"other", .nowhere⟩, by simp, ?_⟩
    decide +kernel

end Job

end Arbor
