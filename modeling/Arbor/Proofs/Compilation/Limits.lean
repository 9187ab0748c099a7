import Arbor.Compilation
import Arbor.Proofs.Constraint.Faults
import Arbor.Proofs.Emission.Mappings

/-!
# Limits of compilation

A program whose literals are scalars is compiled, or has a fault, or exceeds a limit of the object
format.  The compiler keeps all its other promises: no defect besides the limits is ever raised.

* `Job.exceeds_one_byte_of_compile`: which defects compilation can end in, with their messages.
-/

namespace Arbor

open Step

namespace Job

variable {job : Job}

lemma isFault_of_labelIndices {labels : Pool String} {names : List Ident} {p : Problem}
    (h : labelIndices labels names = .error p) : p.IsFault := by
  have hlabel : ∀ name, Check.Raises Problem.IsFault (label labels name) := by
    intro name p hp
    unfold label at hp
    split at hp <;> cases hp
    trivial
  have hall : Check.Raises Problem.IsFault (labelIndices labels names) := by
    clear h
    induction names with
    | nil => exact Check.raises_pure _
    | cons name names ih =>
      exact (hlabel name).bind fun _ _ => ih.bind fun _ _ => Check.raises_pure _
  exact hall p h

/-- Mappings of flat data fail to compile for expected reasons. -/
lemma ensures_compileEach (hjob : job.Preserves Datum.IsFlat) (labels : Pool String)
    (ms : List MappingDef) (hlit : ∀ m ∈ ms, ∀ d ∈ Stmt.literalsAll m.body, d.IsFlat)
    (constants : Pool Constant) :
    Ensures (job.compileEach labels ms) constants (fun _ _ => True) fun p _ => p.IsExpected := by
  induction ms generalizing constants with
  | nil => exact ensures_pure trivial
  | cons m ms ih =>
    rw [List.forall_mem_cons] at hlit
    refine ensures_lift_bind (fun p hp => (isFault_of_labelIndices hp).isExpected) fun _ _ => ?_
    have hmapping : Ensures (job.compileMapping m) constants (fun _ _ => True)
        fun p _ => p.IsExpected := by
      unfold Ensures
      split
      · trivial
      · next herror => exact isExpected_of_compileMapping hjob hlit.1 herror
    refine hmapping.bind (fun _ _ h => h) fun _ constants₁ _ => ?_
    exact (ih hlit.2 constants₁).bind (fun _ _ h => h) fun _ _ _ => ensures_pure trivial

lemma ensures_compileMappings (hjob : job.Preserves Datum.IsFlat) (labels : Pool String)
    (hlit : ∀ m ∈ job.file.mappings, ∀ d ∈ Stmt.literalsAll m.body, d.IsFlat)
    (constants : Pool Constant) :
    Ensures (job.compileMappings labels) constants (fun _ _ => True) fun p _ => p.IsExpected := by
  unfold compileMappings
  dsimp only
  split
  · exact ensures_throw trivial
  · split
    · exact ensures_throw trivial
    · exact ensures_compileEach hjob labels _ hlit constants

/-- Compiling a program of flat data ends in expected problems only. -/
lemma isExpected_of_compile (hstd : job.builtins = .standard)
    (hlit : ∀ d ∈ job.file.literals, d.IsFlat) {p : Problem} (h : job.compile = .error p) :
    p.IsExpected := by
  have hjob : job.Preserves Datum.IsFlat :=
    ⟨hstd, Datum.closed_isFlat, fun g hg d hd => hlit d (File.mem_literals_of_function hg hd)⟩
  unfold compile at h
  split at h
  · next q _ hlower =>
    cases h
    exact ((ensures_lowerMain hstd {}).of_error hlower).isExpected
  · next labels _ =>
    split at h
    · next hmaps =>
      cases h
      refine (ensures_compileMappings hjob labels (fun m hm d hd => ?_) {}).of_error hmaps
      exact hlit d (File.mem_literals_of_mapping hm hd)
    · cases h

/-- **The only internal problems are limits of one byte.**  If the literals of a program are scalars
and compilation ends in a defect, then there are too many constants, a jump is too long, or there
are too many slots, and the message says so. -/
theorem exceeds_one_byte_of_compile (hstd : job.builtins = .standard)
    (hlit : ∀ d ∈ job.file.literals, d.isList = false) {cause : Defect}
    (h : job.compile = .error (.defect cause)) :
    (∃ n, 256 ≤ n ∧ cause = .indexTooLarge "constant" n ∧
        cause.message = "constant index " ++ toString n ++ " exceeds one byte") ∨
      (∃ n, 256 ≤ n ∧ cause = .jumpTooFar n ∧
        cause.message = "jump offset " ++ toString n ++ " exceeds one byte") ∨
      (cause = .outOfSlots ∧ cause.message = "storage slot index exceeds one byte") := by
  have hlimit : cause.IsLimit :=
    isExpected_of_compile hstd (fun d hd => Datum.isFlat_of_isList (hlit d hd)) h
  cases cause with
  | indexTooLarge what n =>
    obtain ⟨rfl, hn⟩ := hlimit
    exact .inl ⟨n, hn, rfl, rfl⟩
  | jumpTooFar n => exact .inr (.inl ⟨n, hlimit, rfl, rfl⟩)
  | outOfSlots => exact .inr (.inr ⟨rfl, rfl⟩)
  | _ => exact hlimit.elim

/-- A program whose mapping defines a name many times, each time in a block of its own. -/
def ofBlocks (n : Nat) : Job where
  file :=
    { definitions :=
        [.main ⟨⟨"main", .nowhere⟩, .all, []⟩,
          .mapping ⟨⟨"shadows", .nowhere⟩, [], List.replicate n
            (.block [.define .var ⟨"x", .nowhere⟩ (.literal (.bool true) .nowhere)])⟩]
      includes := [] }

lemma compile_ofBlocks : (ofBlocks 256).compile = .error (.defect .outOfSlots) := by
  have h : (match (ofBlocks 256).compile with
      | .error p => decide (p = .defect .outOfSlots)
      | .ok _ => false) = true := by
    decide +kernel
  split at h
  · next p hp => rw [hp, of_decide_eq_true h]
  · cases h

/-- Slots are not used again, so a mapping cannot define more names than there are slots. -/
theorem exceeds_one_byte_ofBlocks :
    (ofBlocks 256).compile = .error (.defect .outOfSlots) ∧
      ((∃ n, 256 ≤ n ∧ Defect.outOfSlots = .indexTooLarge "constant" n ∧
          Defect.outOfSlots.message = "constant index " ++ toString n ++ " exceeds one byte") ∨
        (∃ n, 256 ≤ n ∧ Defect.outOfSlots = .jumpTooFar n ∧
          Defect.outOfSlots.message = "jump offset " ++ toString n ++ " exceeds one byte") ∨
        (Defect.outOfSlots = .outOfSlots ∧
          Defect.outOfSlots.message = "storage slot index exceeds one byte")) := by
  have hlit : ∀ d ∈ (ofBlocks 256).file.literals, d.isList = false := by decide +kernel
  exact ⟨compile_ofBlocks, exceeds_one_byte_of_compile rfl hlit compile_ofBlocks⟩

end Job

end Arbor
