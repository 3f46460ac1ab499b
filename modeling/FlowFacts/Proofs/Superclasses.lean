/-
Climbing through superclasses.  A class may come to be its own superclass, and
nothing keeps the climb from going round then.  With as many steps as there are
types the climb gives an answer exactly if it has one without a limit.
-/
import FlowFacts.Program.Usage
import FlowFacts.Proofs.Closures

namespace FlowFacts

open Relation

namespace Program

variable {program : Program} {wanted : TypeId → Bool}
variable {type sub sup root : TypeId} {found : Bool}

def Parent (program : Program) (sub sup : TypeId) : Prop :=
  program.parent? sub = some sup

theorem parent_eq_mem :
    program.Parent = fun sub sup => sup ∈ (program.parent? sub).toList := by
  funext sub sup
  simp [Parent]

theorem parent?_eq_none (htype : program.types.size ≤ type) :
    program.parent? type = none := by
  simp [parent?, classDecl?, Array.getElem?_eq_none htype]

/-- Climbing through superclasses, without a limit, comes to a type that is
wanted, or to one above which there is nothing. -/
inductive Ascends (program : Program) (wanted : TypeId → Bool) :
    TypeId → Bool → Prop
  | here {type : TypeId} (hwanted : wanted type = true) :
      Ascends program wanted type true
  | top {type : TypeId} (hunwanted : wanted type = false)
      (hparent : program.parent? type = none) :
      Ascends program wanted type false
  | up {type parent : TypeId} {found : Bool} (hunwanted : wanted type = false)
      (hparent : program.Parent type parent)
      (hrest : Ascends program wanted parent found) :
      Ascends program wanted type found

/-- The climb comes to `sup`, or to an end. -/
def Climbs (program : Program) (sup : TypeId) : TypeId → Bool → Prop :=
  program.Ascends (· == sup)

theorem Ascends.unique {found' : Bool} (hascends : program.Ascends wanted type found)
    (hascends' : program.Ascends wanted type found') : found = found' := by
  induction hascends with
  | here hwanted =>
      cases hascends' with
      | here => rfl
      | top hunwanted | up hunwanted => cases hwanted.symm.trans hunwanted
  | top hunwanted hparent =>
      cases hascends' with
      | here hwanted => cases hwanted.symm.trans hunwanted
      | top => rfl
      | up _ hparent' => cases hparent.symm.trans hparent'
  | up hunwanted hparent _ ih =>
      cases hascends' with
      | here hwanted => cases hwanted.symm.trans hunwanted
      | top _ hparent' => cases hparent'.symm.trans hparent
      | up _ hparent' hrest =>
          obtain rfl := Option.some.inj (hparent.symm.trans hparent')
          exact ih hrest

theorem ascends_of_lineage {steps : Nat} {line : List TypeId}
    (hline : program.lineage wanted steps type = .ok line) :
    program.Ascends wanted type (line.any wanted) := by
  induction steps generalizing type line with
  | zero => cases hline
  | succ steps ih =>
      rw [lineage] at hline
      split at hline
      · next hwanted =>
          obtain rfl := Except.ok.inj hline
          rw [List.any_cons, hwanted]
          exact .here hwanted
      · next hunwanted =>
          rw [Bool.not_eq_true] at hunwanted
          split at hline
          · next parent hparent =>
              obtain ⟨rest, hrest, hline⟩ := exists_of_bind hline
              obtain rfl := Except.ok.inj hline
              rw [List.any_cons, hunwanted, Bool.false_or]
              exact .up hunwanted hparent (ih hrest)
          · next hparent =>
              obtain rfl := Except.ok.inj hline
              rw [List.any_cons, hunwanted]
              exact .top hunwanted hparent

theorem lineage_answers {steps limit : Nat} {last : TypeId}
    (hsteps : Steps (fun type => (program.parent? type).toList) steps type last)
    (hlast : wanted last = true ∨ program.parent? last = none)
    (hlimit : steps < limit) : Answers (program.lineage wanted limit type) := by
  induction hsteps generalizing limit with
  | refl type =>
      obtain ⟨limit, rfl⟩ := Nat.exists_eq_succ_of_ne_zero (Nat.ne_zero_of_lt hlimit)
      rw [lineage]
      rcases hlast with hwanted | hparent
      · rw [if_pos hwanted]
        exact .ok _
      · rw [hparent]
        exact .ite (.ok _) (.ok _)
  | @step fewer type parent _ hstep _ ih =>
      obtain ⟨limit, rfl⟩ := Nat.exists_eq_succ_of_ne_zero (Nat.ne_zero_of_lt hlimit)
      have hparent : program.parent? type = some parent := by simpa using hstep
      rw [lineage, hparent]
      exact .ite (.ok _)
        (.bind (ih hlast (Nat.lt_of_succ_lt_succ hlimit)) fun _ _ => .pure _)

/-- Where the climb comes to an end, so many steps are enough. -/
theorem superclasses_answers {last : TypeId}
    (hreach : ReflTransGen program.Parent type last)
    (hlast : wanted last = true ∨ program.parent? last = none) :
    Answers (program.superclasses wanted type) := by
  rw [parent_eq_mem] at hreach
  have hsinks : ∀ type, program.types.size ≤ type →
      (program.parent? type).toList = [] := by
    intro type htype
    rw [parent?_eq_none htype]
    rfl
  obtain ⟨steps, hle, hsteps⟩ := exists_steps_le hsinks hreach
  exact lineage_answers hsteps hlast (Nat.lt_succ_of_le hle)

theorem Ascends.exists_last (hascends : program.Ascends wanted type found) :
    ∃ last, ReflTransGen program.Parent type last ∧
      (wanted last = true ∨ program.parent? last = none) := by
  induction hascends with
  | here hwanted => exact ⟨_, .refl, Or.inl hwanted⟩
  | top _ hparent => exact ⟨_, .refl, Or.inr hparent⟩
  | up _ hparent _ ih =>
      obtain ⟨last, hreach, hlast⟩ := ih
      exact ⟨last, .head hparent hreach, hlast⟩

/-- The limit makes no difference: the climb has the answer that it has without
one. -/
theorem climb_eq_ok :
    program.climb wanted type = .ok found ↔
      program.Ascends wanted type found := by
  constructor
  · intro hclimb
    obtain ⟨line, hline, hclimb⟩ := exists_of_bind hclimb
    obtain rfl := Except.ok.inj hclimb
    exact ascends_of_lineage hline
  · intro hascends
    obtain ⟨last, hreach, hlast⟩ := hascends.exists_last
    obtain ⟨line, hline⟩ := superclasses_answers hreach hlast
    rw [climb, hline, hascends.unique (ascends_of_lineage hline)]
    rfl

theorem climbs_of_reaches (hreach : ReflTransGen program.Parent sub sup) :
    program.Climbs sup sub true := by
  induction hreach using ReflTransGen.head_induction_on with
  | refl => exact .here (beq_self_eq_true sup)
  | @head type parent hparent _ ih =>
      cases heq : type == sup with
      | true => exact .here heq
      | false => exact .up heq hparent ih

theorem Climbs.reaches (hclimbs : program.Climbs sup sub true) :
    ReflTransGen program.Parent sub sup := by
  generalize hfound : true = found at hclimbs
  induction hclimbs with
  | here hwanted => exact eq_of_beq hwanted ▸ .refl
  | top => cases hfound
  | up _ hparent _ ih => exact .head hparent (ih hfound)

theorem Climbs.not_reaches (hclimbs : program.Climbs sup sub false) :
    ¬ ReflTransGen program.Parent sub sup := by
  intro hreach
  cases (climbs_of_reaches hreach).unique hclimbs

/-- Above every type there is one without a superclass. -/
def HasRoots (program : Program) : Prop :=
  ∀ type, ∃ root, ReflTransGen program.Parent type root ∧
    program.parent? root = none

/-- Every climb that is in search of nothing comes to a top. -/
theorem hasRoots_of_climb (hclimb : ∀ type < program.types.size,
    program.climb (fun _ => false) type = .ok false) : program.HasRoots := by
  intro type
  by_cases htype : type < program.types.size
  · obtain ⟨last, hreach, hlast⟩ :=
      (climb_eq_ok.mp (hclimb type htype)).exists_last
    exact ⟨last, hreach, hlast.resolve_left Bool.false_ne_true⟩
  · exact ⟨type, .refl, parent?_eq_none (Nat.not_lt.mp htype)⟩

namespace HasRoots

theorem superclasses_answers (hroots : program.HasRoots)
    (wanted : TypeId → Bool) (type : TypeId) :
    Answers (program.superclasses wanted type) := by
  obtain ⟨root, hreach, hroot⟩ := hroots type
  exact Program.superclasses_answers hreach (Or.inr hroot)

theorem climb_answers (hroots : program.HasRoots) (wanted : TypeId → Bool)
    (type : TypeId) : Answers (program.climb wanted type) :=
  .bind (hroots.superclasses_answers wanted type) fun _ _ => .pure _

theorem isSubclass_answers (hroots : program.HasRoots) (sub sup : TypeId) :
    Answers (program.isSubclass sub sup) :=
  hroots.climb_answers _ sub

theorem initializationHasEffects_answers (hroots : program.HasRoots)
    (type : TypeId) {method : MethodId}
    (hrunning : Answers (program.method method)) :
    Answers (program.initializationHasEffects type (some method)) := by
  refine .bind hrunning fun running _ => ?_
  exact .bind (hroots.isSubclass_answers running.holder type) fun _ _ =>
    .ite (.pure false) (hroots.climb_answers _ type)

end HasRoots

/-- A class that is its own superclass, with a static field, and a method of
another class. -/
def circularClass : Program where
  types := #[
    { descriptor := .plain "LA;"
      definition := some { parent := some 0, traits := {}, fields := [0] } },
    { descriptor := .plain "LB;"
      definition := some { parent := none, traits := {}, methods := [0] } },
    { descriptor := ⟨1, "I"⟩ }]
  fields := #[{ holder := 0, name := "f", type := 2
                traits := { isStatic := true } }]
  methods := #[{ holder := 1, name := "main", params := [2], returns := 2
                 traits := { isStatic := true } }]

/-- Whether its initialization can be observed is never found out. -/
theorem circularClass_not_ascends (found : Bool) :
    ¬ circularClass.Ascends circularClass.startsObservably 0 found := by
  have hclimb : circularClass.climb circularClass.startsObservably 0 =
      .error .endless := by decide
  rw [← climb_eq_ok, hclimb]
  exact nofun

end Program

end FlowFacts
