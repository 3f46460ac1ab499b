/-
What a session keeps between questions does not show in its answers.  The
dominators kept are those of the body at some revision; if the body still has
this revision, it is the same body, and the marks kept are marks of this body
too.  Otherwise the dominators are refused before any mark is looked at.
-/
import Mathlib.Data.List.Induction
import FlowFacts.Initialization.Session
import FlowFacts.Proofs.Edits

namespace FlowFacts

namespace Body

variable {body : Body} {program : Program} {type : TypeId}
variable {dominator target : BlockId} {kept other : Option Marks}

theorem builtAt_of_dominators {tree : Dominators}
    (htree : body.dominators = .ok tree) : tree.builtAt = body.revision := by
  obtain ⟨order, _, htree⟩ := exists_of_bind htree
  split at htree
  · obtain rfl := Except.ok.inj htree
    rfl
  · cases htree

/-- Marks that are kept are those that marking the body gives. -/
def CurrentMarks (body : Body) (kept : Option Marks) : Prop :=
  ∀ marks target, kept = some marks → marks.target = some target →
    Marks.mark body target = .ok marks

theorem currentMarks_none (body : Body) : body.CurrentMarks none := by
  intro marks target hmarks
  cases hmarks

theorem currentMarks_of_mark {marks : Marks}
    (hmark : Marks.mark body target = .ok marks) :
    body.CurrentMarks (some marks) := by
  rintro _ other ⟨rfl⟩ hother
  have htarget : marks.target = some target := by
    obtain ⟨content, _, hmark⟩ := exists_of_bind hmark
    obtain rfl := Except.ok.inj hmark
    rfl
  rw [htarget, Option.some.injEq] at hother
  rw [← hother, hmark]

theorem marksFor_eq_mark (hkept : body.CurrentMarks kept) (target : BlockId) :
    body.marksFor kept target = Marks.mark body target := by
  rw [marksFor]
  split
  · next htarget =>
      cases kept with
      | none => cases htarget
      | some marks => exact (hkept marks target rfl htarget).symm
  · rfl

/-- Two computations fail alike, or give the same result and marks of the
body. -/
inductive AgreeUpToMarks {α : Type} (body : Body) :
    Except Fault (α × Option Marks) → Except Fault (α × Option Marks) → Prop
  | fault (fault : Fault) : AgreeUpToMarks body (.error fault) (.error fault)
  | result (result : α) {kept other : Option Marks}
      (hkept : body.CurrentMarks kept) (hother : body.CurrentMarks other) :
      AgreeUpToMarks body (.ok (result, kept)) (.ok (result, other))

namespace AgreeUpToMarks

variable {α β : Type}

/-- Both computations start with the same part. -/
theorem after_same {start : Except Fault β}
    {first second : β → Except Fault (α × Option Marks)}
    (hrest : ∀ value, body.AgreeUpToMarks (first value) (second value)) :
    body.AgreeUpToMarks (start >>= first) (start >>= second) := by
  cases start with
  | error fault => exact .fault fault
  | ok value => exact hrest value

theorem bind {start start' : Except Fault (β × Option Marks)}
    {first second : β × Option Marks → Except Fault (α × Option Marks)}
    (hstart : body.AgreeUpToMarks start start')
    (hrest : ∀ value kept other, body.CurrentMarks kept →
      body.CurrentMarks other →
      body.AgreeUpToMarks (first (value, kept)) (second (value, other))) :
    body.AgreeUpToMarks (start >>= first) (start' >>= second) := by
  cases hstart with
  | fault fault => exact .fault fault
  | result value hkept hother => exact hrest value _ _ hkept hother

theorem map_fst {first second : Except Fault (α × Option Marks)}
    (hagree : body.AgreeUpToMarks first second) :
    Prod.fst <$> first = Prod.fst <$> second := by
  cases hagree with
  | fault => rfl
  | result => rfl

theorem current {first second : Except Fault (α × Option Marks)} {result : α}
    (hagree : body.AgreeUpToMarks first second)
    (hfirst : first = .ok (result, kept)) : body.CurrentMarks kept := by
  cases hagree with
  | fault => cases hfirst
  | result _ hkept _ =>
      obtain ⟨_, rfl⟩ := Prod.mk.inj (Except.ok.inj hfirst)
      exact hkept

end AgreeUpToMarks

theorem completionIn_agree (hkept : body.CurrentMarks kept)
    (hother : body.CurrentMarks other) :
    body.AgreeUpToMarks (body.completionIn program kept dominator target)
      (body.completionIn program other dominator target) := by
  apply AgreeUpToMarks.after_same
  intro content
  split
  · exact .result Completion.normal hkept hother
  · rw [marksFor_eq_mark hkept, marksFor_eq_mark hother]
    cases hmark : Marks.mark body target with
    | error fault => exact .fault fault
    | ok marks =>
        have hmarks := currentMarks_of_mark hmark
        change body.AgreeUpToMarks (if _ then _ else _) (if _ then _ else _)
        split
        · exact .result Completion.unknown hmarks hmarks
        · exact .result Completion.normal hmarks hmarks

/-- The search through dominators finds the same with any marks of the
body. -/
theorem isInitializedInDominators_agree (dominators : List BlockId)
    (hkept : body.CurrentMarks kept) (hother : body.CurrentMarks other) :
    body.AgreeUpToMarks
      (body.isInitializedInDominators program type target dominators kept)
      (body.isInitializedInDominators program type target dominators other) := by
  induction dominators generalizing kept other with
  | nil => exact .result false hkept hother
  | cons dominator rest ih =>
      apply (completionIn_agree hkept hother).bind
      intro completion kept' other' hkept' hother'
      apply AgreeUpToMarks.after_same
      intro content
      apply AgreeUpToMarks.after_same
      intro found
      cases found with
      | true => exact .result true hkept' hother'
      | false => exact ih hkept' hother'

end Body

namespace InitSession

variable {session : InitSession} {body : Body} {program : Program}

/-- Look for the class in the dominators of a block. -/
def search (session : InitSession) (body : Body) (program : Program)
    (type : TypeId) (block : BlockId) : Except Fault (Bool × InitSession) := do
  let tree ← session.treeFor body
  let dominators ← tree.strict block
  let (found, marks) ← body.isInitializedInDominators program type block
    dominators session.marks
  return (found, { session with tree := some tree, marks })

theorem query_eq (hprogram : session.program = some program) (type : TypeId)
    (instr : InstrId) :
    session.query body type instr = (do
      let block := (← body.instruction instr).block
      let found ← (body.before instr).anyM fun previous =>
        body.triggers program .transitive .normal previous type
      if found then return (true, session)
      else session.search body program type block) := by
  simp only [query, hprogram, search]

theorem fst_search (session : InitSession) (type : TypeId) (block : BlockId) :
    Prod.fst <$> session.search body program type block = (do
      let tree ← session.treeFor body
      let dominators ← tree.strict block
      Prod.fst <$> body.isInitializedInDominators program type block dominators
        session.marks) := by
  simp [search]

/-- A session that is right about a revision finds what a fresh one finds. -/
theorem fst_search_eq_fresh {tree : Dominators}
    (htree : session.tree = some tree) (hbuilt : body.dominators = .ok tree)
    (hmarks : body.CurrentMarks session.marks) (type : TypeId)
    (block : BlockId) :
    Prod.fst <$> session.search body program type block =
      Prod.fst <$> search { program := some program } body program type
        block := by
  have hcurrent := Body.builtAt_of_dominators hbuilt
  have htreeFor : session.treeFor body = .ok tree := by
    simp only [treeFor, htree, pure_bind, hcurrent, if_true]
    rfl
  have hfresh : treeFor { program := some program } body = .ok tree := by
    simp only [treeFor, hbuilt]
    exact if_pos hcurrent
  rw [fst_search, fst_search, htreeFor, hfresh]
  congr 1
  funext tree
  congr 1
  funext dominators
  exact (Body.isInitializedInDominators_agree dominators hmarks
    (Body.currentMarks_none body)).map_fst

theorem treeFor_of_some {tree found : Dominators}
    (htree : session.tree = some tree)
    (hfound : session.treeFor body = .ok found) :
    found = tree ∧ tree.builtAt = body.revision := by
  simp only [treeFor, htree, pure_bind] at hfound
  split at hfound
  · next hcurrent => exact ⟨(Except.ok.inj hfound).symm, hcurrent⟩
  · cases hfound

theorem treeFor_of_none {found : Dominators} (htree : session.tree = none)
    (hfound : session.treeFor body = .ok found) :
    body.dominators = .ok found := by
  simp only [treeFor, htree] at hfound
  obtain ⟨tree, hbuilt, hfound⟩ := exists_of_bind hfound
  split at hfound
  · rw [hbuilt, Except.ok.inj hfound]
  · cases hfound

/-- What a question changes in the session. -/
theorem query_cases {session' : InitSession} {type : TypeId} {instr : InstrId}
    {found : Bool}
    (hquery : session.query body type instr = .ok (found, session')) :
    session' = session ∨ ∃ tree, session.treeFor body = .ok tree ∧
      session'.program = session.program ∧ session'.tree = some tree ∧
      (body.CurrentMarks session.marks → body.CurrentMarks session'.marks) := by
  cases hprogram : session.program with
  | none =>
      simp only [query, hprogram] at hquery
      obtain ⟨_, rfl⟩ := Prod.mk.inj (Except.ok.inj hquery)
      exact Or.inl rfl
  | some program =>
      rw [query_eq hprogram] at hquery
      obtain ⟨instruction, _, hquery⟩ := exists_of_bind hquery
      obtain ⟨here, _, hquery⟩ := exists_of_bind hquery
      cases here with
      | true =>
          obtain ⟨_, rfl⟩ := Prod.mk.inj (Except.ok.inj hquery)
          exact Or.inl rfl
      | false =>
          obtain ⟨tree, htree, hquery⟩ := exists_of_bind hquery
          obtain ⟨dominators, _, hquery⟩ := exists_of_bind hquery
          obtain ⟨⟨answer, marks⟩, hsearch, hquery⟩ := exists_of_bind hquery
          obtain ⟨_, rfl⟩ := Prod.mk.inj (Except.ok.inj hquery)
          refine Or.inr ⟨tree, htree, hprogram, rfl, fun hmarks => ?_⟩
          exact (Body.isInitializedInDominators_agree dominators hmarks
            hmarks).current hsearch

theorem treeFor_of_stale {tree : Dominators} (htree : session.tree = some tree)
    (hstale : tree.builtAt ≠ body.revision) :
    session.treeFor body =
      .error (.staleDominators tree.builtAt body.revision) := by
  simp only [treeFor, htree, pure_bind, if_neg hstale]
  rfl

end InitSession

/-- What can happen while a session is open. -/
inductive Request
  | query (type : TypeId) (instr : InstrId)
  | finish
  | notifyChanged
  | edit (edit : Edit)
deriving DecidableEq, Repr

/-- A session and the body it is about, as it is now. -/
structure Inquiry where
  session : InitSession
  body : Body

namespace Inquiry

variable {inquiry start : Inquiry} {requests : List Request}

def fresh (program : Option Program) (body : Body) : Inquiry :=
  { session := { program }, body }

def answer (inquiry : Inquiry) (type : TypeId) (instr : InstrId) :
    Except Fault Bool :=
  Prod.fst <$> inquiry.session.query inquiry.body type instr

/-- Carry out a request.  One that fails changes nothing. -/
def serve (inquiry : Inquiry) : Request → Inquiry
  | .query type instr =>
      match inquiry.session.query inquiry.body type instr with
      | .ok (_, session) => { inquiry with session }
      | .error _ => inquiry
  | .finish => { inquiry with session := inquiry.session.finish }
  | .notifyChanged =>
      { inquiry with session := inquiry.session.notifyChanged }
  | .edit edit =>
      match inquiry.body.edit edit with
      | .ok body => { inquiry with body }
      | .error _ => inquiry

def serveAll (inquiry : Inquiry) (requests : List Request) : Inquiry :=
  requests.foldl serve inquiry

@[simp] theorem serveAll_nil (inquiry : Inquiry) : inquiry.serveAll [] = inquiry :=
  rfl

@[simp] theorem serveAll_append (inquiry : Inquiry) (first second : List Request) :
    inquiry.serveAll (first ++ second) =
      (inquiry.serveAll first).serveAll second :=
  List.foldl_append

@[simp] theorem serveAll_cons (inquiry : Inquiry) (request : Request)
    (requests : List Request) :
    inquiry.serveAll (request :: requests) =
      (inquiry.serve request).serveAll requests :=
  rfl

theorem program_serve (inquiry : Inquiry) (request : Request) :
    (inquiry.serve request).session.program = inquiry.session.program := by
  cases request with
  | query type instr =>
      rw [serve]
      split
      · next hquery =>
          rcases InitSession.query_cases hquery with hsame | ⟨_, _, hprogram, _⟩
          · rw [hsame]
          · exact hprogram
      · rfl
  | finish => rfl
  | notifyChanged => rfl
  | edit edit => rw [serve]; split <;> rfl

theorem program_serveAll (inquiry : Inquiry) (requests : List Request) :
    (inquiry.serveAll requests).session.program = inquiry.session.program := by
  induction requests generalizing inquiry with
  | nil => rfl
  | cons request rest ih => rw [serveAll_cons, ih, program_serve]

/-- Some edit among the requests goes through. -/
def EditedDuring (inquiry : Inquiry) (requests : List Request) : Prop :=
  ∃ first edit rest edited, requests = first ++ .edit edit :: rest ∧
    (inquiry.serveAll first).body.edit edit = .ok edited

/-- The body stays as it is until an edit goes through, and from then on its
revision is a later one. -/
theorem body_serveAll (inquiry : Inquiry) (requests : List Request) :
    (inquiry.serveAll requests).body = inquiry.body ∨
      (inquiry.body.revision < (inquiry.serveAll requests).body.revision ∧
        inquiry.EditedDuring requests) := by
  induction requests using List.reverseRecOn with
  | nil => exact Or.inl rfl
  | append_singleton requests request ih =>
      have hextend : (inquiry.serveAll requests).body =
          ((inquiry.serveAll requests).serve request).body →
          ((inquiry.serveAll requests).serve request).body = inquiry.body ∨
            (inquiry.body.revision <
                ((inquiry.serveAll requests).serve request).body.revision ∧
              inquiry.EditedDuring (requests ++ [request])) := by
        intro hsame
        rw [← hsame]
        rcases ih with hbody | ⟨hlt, first, edit, rest, edited, rfl, hedit⟩
        · exact Or.inl hbody
        · exact Or.inr ⟨hlt, first, edit, rest ++ [request], edited,
            by simp, hedit⟩
      rw [serveAll_append, serveAll_cons, serveAll_nil]
      cases request with
      | query type instr =>
          apply hextend
          rw [serve]
          split <;> rfl
      | finish => exact hextend rfl
      | notifyChanged => exact hextend rfl
      | edit edit =>
          cases hedit : (inquiry.serveAll requests).body.edit edit with
          | error fault =>
              apply hextend
              simp only [serve, hedit]
          | ok edited =>
              right
              refine ⟨?_, requests, edit, [], edited, rfl, hedit⟩
              have hrevision := Body.revision_of_edit hedit
              simp only [serve, hedit, hrevision]
              rcases ih with hbody | ⟨hlt, _⟩
              · rw [hbody]
                omega
              · omega

/-- A question has built these dominators, from the body as it was then; no
change has been notified since; and the marks kept are marks of that body. -/
structure BuiltBy (start : Inquiry) (requests : List Request)
    (tree : Dominators) (marks : Option Marks) (before : List Request)
    (type : TypeId) (instr : InstrId) (after : List Request) : Prop where
  split : requests = before ++ .query type instr :: after
  unbuilt : (start.serveAll before).session.tree = none
  built : (start.serveAll before).body.dominators = .ok tree
  silent : .notifyChanged ∉ after
  marks : (start.serveAll before).body.CurrentMarks marks

section BuiltBy

variable {tree : Dominators} {marks : Option Marks} {type : TypeId}
variable {instr : InstrId} {before after : List Request}

theorem BuiltBy.extend {request : Request} {marks' : Option Marks}
    (hbuilt : start.BuiltBy requests tree marks before type instr after)
    (hrequest : request ≠ .notifyChanged)
    (hmarks : (start.serveAll before).body.CurrentMarks marks') :
    start.BuiltBy (requests ++ [request]) tree marks' before type instr
      (after ++ [request]) where
  split := by simp [hbuilt.split]
  unbuilt := hbuilt.unbuilt
  built := hbuilt.built
  silent := by simp [hbuilt.silent, hrequest.symm]
  marks := hmarks

theorem BuiltBy.body_cases
    (hbuilt : start.BuiltBy requests tree marks before type instr after) :
    (start.serveAll requests).body = (start.serveAll before).body ∨
      ((start.serveAll before).body.revision <
          (start.serveAll requests).body.revision ∧
        (start.serveAll (before ++ [.query type instr])).EditedDuring after) := by
  have hasked : (start.serveAll (before ++ [.query type instr])).body =
      (start.serveAll before).body := by
    rw [serveAll_append, serveAll_cons, serveAll_nil, serve]
    split <;> rfl
  have hcases :=
    body_serveAll (start.serveAll (before ++ [.query type instr])) after
  rwa [← serveAll_append, List.append_assoc, List.singleton_append,
    ← hbuilt.split, hasked] at hcases

/-- Dominators of the current revision are dominators of the current body. -/
theorem BuiltBy.body_eq
    (hbuilt : start.BuiltBy requests tree marks before type instr after)
    (hcurrent : tree.builtAt = (start.serveAll requests).body.revision) :
    (start.serveAll before).body = (start.serveAll requests).body := by
  rcases hbuilt.body_cases with hsame | ⟨hlt, _⟩
  · exact hsame.symm
  · rw [← hcurrent, Body.builtAt_of_dominators hbuilt.built] at hlt
    exact absurd hlt (Nat.lt_irrefl _)

end BuiltBy

/-- Without dominators the session keeps no marks, and dominators have been
built by a question. -/
structure Kept (start : Inquiry) (requests : List Request) : Prop where
  marks_eq_none : (start.serveAll requests).session.tree = none →
    (start.serveAll requests).session.marks = none
  builtBy : ∀ tree, (start.serveAll requests).session.tree = some tree →
    ∃ before type instr after, start.BuiltBy requests tree
      (start.serveAll requests).session.marks before type instr after

/-- A request that leaves the session alone keeps what is kept. -/
theorem Kept.of_same_session {request : Request}
    (hkept : start.Kept requests) (hrequest : request ≠ .notifyChanged)
    (hsame : ((start.serveAll requests).serve request).session =
      (start.serveAll requests).session) :
    start.Kept (requests ++ [request]) := by
  have hsession : (start.serveAll (requests ++ [request])).session =
      (start.serveAll requests).session := by
    rw [serveAll_append, serveAll_cons, serveAll_nil, hsame]
  refine ⟨?_, ?_⟩
  · rw [hsession]
    exact hkept.marks_eq_none
  · rw [hsession]
    intro tree htree
    obtain ⟨before, type, instr, after, hbuilt⟩ := hkept.builtBy tree htree
    exact ⟨before, type, instr, after ++ [request],
      hbuilt.extend hrequest hbuilt.marks⟩

theorem Kept.query (hkept : start.Kept requests) (type : TypeId)
    (instr : InstrId) : start.Kept (requests ++ [.query type instr]) := by
  cases hquery : (start.serveAll requests).session.query
      (start.serveAll requests).body type instr with
  | error fault =>
      apply hkept.of_same_session (by simp)
      simp only [serve, hquery]
  | ok result =>
      obtain ⟨found, session'⟩ := result
      have hserve : (start.serveAll requests).serve (.query type instr) =
          { start.serveAll requests with session := session' } := by
        simp only [serve, hquery]
      rcases InitSession.query_cases hquery with
        rfl | ⟨tree, htree, _, htree', hmarks⟩
      · exact hkept.of_same_session (by simp) (by rw [hserve])
      · have hsession : (start.serveAll
            (requests ++ [.query type instr])).session = session' := by
          rw [serveAll_append, serveAll_cons, serveAll_nil, hserve]
        refine ⟨by rw [hsession, htree']; simp, ?_⟩
        rw [hsession, htree']
        rintro _ ⟨rfl⟩
        cases hold : (start.serveAll requests).session.tree with
        | none =>
            refine ⟨requests, type, instr, [], rfl, hold,
              InitSession.treeFor_of_none hold htree, by simp, hmarks ?_⟩
            rw [hkept.marks_eq_none hold]
            exact Body.currentMarks_none _
        | some old =>
            obtain ⟨rfl, hcurrent⟩ := InitSession.treeFor_of_some hold htree
            obtain ⟨before, asked, place, after, hbuilt⟩ :=
              hkept.builtBy _ hold
            have hbody := hbuilt.body_eq hcurrent
            refine ⟨before, asked, place, after ++ [.query type instr],
              hbuilt.extend (by simp) ?_⟩
            rw [hbody]
            exact hmarks (hbody ▸ hbuilt.marks)

/-- Any requests whatever keep this. -/
theorem kept_fresh (program : Option Program) (body : Body)
    (requests : List Request) : (fresh program body).Kept requests := by
  induction requests using List.reverseRecOn with
  | nil => exact ⟨fun _ => rfl, fun tree htree => by cases htree⟩
  | append_singleton requests request ih =>
      cases request with
      | query type instr => exact ih.query type instr
      | finish =>
          have hserve : ((fresh program body).serveAll
              (requests ++ [.finish])).session =
              ((fresh program body).serveAll requests).session.finish := by
            rw [serveAll_append]
            rfl
          refine ⟨fun _ => by rw [hserve]; rfl, ?_⟩
          rw [hserve]
          intro tree htree
          obtain ⟨before, type, instr, after, hbuilt⟩ := ih.builtBy tree htree
          exact ⟨before, type, instr, after ++ [.finish],
            hbuilt.extend (by simp) (Body.currentMarks_none _)⟩
      | notifyChanged =>
          have hserve : ((fresh program body).serveAll
              (requests ++ [.notifyChanged])).session =
              ((fresh program body).serveAll
                requests).session.notifyChanged := by
            rw [serveAll_append]
            rfl
          refine ⟨fun _ => by rw [hserve]; rfl, ?_⟩
          rw [hserve]
          rintro tree ⟨⟩
      | edit edit =>
          apply ih.of_same_session (by simp)
          rw [serve]
          split <;> rfl

/-- A question has built these dominators, the body has been edited since, and
no change has been notified. -/
def EditedSinceBuilt (start : Inquiry) (requests : List Request)
    (tree : Dominators) : Prop :=
  ∃ before type instr after, requests = before ++ .query type instr :: after ∧
    (start.serveAll before).session.tree = none ∧
    (start.serveAll before).body.dominators = .ok tree ∧
    .notifyChanged ∉ after ∧
    (start.serveAll (before ++ [.query type instr])).EditedDuring after

/-- A question is answered in the block of the instruction, whatever the
session keeps, or by a search through the dominators. -/
theorem answer_cases (program : Program) (body : Body) (type : TypeId)
    (instr : InstrId) :
    (∃ result, ∀ session : InitSession, session.program = some program →
      answer { session, body } type instr = result) ∨
    ∃ block, ∀ session : InitSession, session.program = some program →
      answer { session, body } type instr =
        Prod.fst <$> session.search body program type block := by
  cases hinstr : body.instruction instr with
  | error fault =>
      refine Or.inl ⟨.error fault, fun session hprogram => ?_⟩
      rw [answer, InitSession.query_eq hprogram, hinstr]
      rfl
  | ok instruction =>
      cases hfound : (body.before instr).anyM fun previous =>
          body.triggers program .transitive .normal previous type with
      | error fault =>
          refine Or.inl ⟨.error fault, fun session hprogram => ?_⟩
          rw [answer, InitSession.query_eq hprogram, hinstr, hfound]
          rfl
      | ok found =>
          cases found with
          | true =>
              refine Or.inl ⟨.ok true, fun session hprogram => ?_⟩
              rw [answer, InitSession.query_eq hprogram, hinstr, hfound]
              rfl
          | false =>
              refine Or.inr ⟨instruction.block, fun session hprogram => ?_⟩
              rw [answer, InitSession.query_eq hprogram, hinstr, hfound]
              rfl

theorem answer_of_no_program (hprogram : inquiry.session.program = none)
    (type : TypeId) (instr : InstrId) :
    inquiry.answer type instr = .ok false := by
  simp only [answer, InitSession.query, hprogram]
  rfl

theorem eq_fresh (htree : inquiry.session.tree = none)
    (hmarks : inquiry.session.marks = none) :
    inquiry = fresh inquiry.session.program inquiry.body := by
  obtain ⟨⟨program, tree, marks⟩, body⟩ := inquiry
  obtain rfl : tree = none := htree
  obtain rfl : marks = none := hmarks
  rfl

/-- What is kept about the body itself does not change an answer. -/
theorem answer_eq_fresh {tree : Dominators}
    (htree : inquiry.session.tree = some tree)
    (hbuilt : inquiry.body.dominators = .ok tree)
    (hmarks : inquiry.body.CurrentMarks inquiry.session.marks) (type : TypeId)
    (instr : InstrId) :
    inquiry.answer type instr =
      (fresh inquiry.session.program inquiry.body).answer type instr := by
  cases hprogram : inquiry.session.program with
  | none => rw [answer_of_no_program hprogram, answer_of_no_program rfl]
  | some program =>
      rcases answer_cases program inquiry.body type instr with
        ⟨result, hanswer⟩ | ⟨block, hanswer⟩
      · exact (hanswer inquiry.session hprogram).trans
          (hanswer { program := some program } rfl).symm
      · exact (hanswer inquiry.session hprogram).trans
          ((InitSession.fst_search_eq_fresh htree hbuilt hmarks type
            block).trans (hanswer { program := some program } rfl).symm)

/-- Dominators of another revision are refused, unless the block of the
instruction gives the answer. -/
theorem answer_eq_fresh_or_refused {tree : Dominators}
    (htree : inquiry.session.tree = some tree)
    (hstale : tree.builtAt ≠ inquiry.body.revision) (type : TypeId)
    (instr : InstrId) :
    inquiry.answer type instr =
        (fresh inquiry.session.program inquiry.body).answer type instr ∨
      inquiry.answer type instr =
        .error (.staleDominators tree.builtAt inquiry.body.revision) := by
  cases hprogram : inquiry.session.program with
  | none =>
      left
      rw [answer_of_no_program hprogram, answer_of_no_program rfl]
  | some program =>
      rcases answer_cases program inquiry.body type instr with
        ⟨result, hanswer⟩ | ⟨block, hanswer⟩
      · left
        exact (hanswer inquiry.session hprogram).trans
          (hanswer { program := some program } rfl).symm
      · right
        refine (hanswer inquiry.session hprogram).trans ?_
        rw [InitSession.fst_search, InitSession.treeFor_of_stale htree hstale]
        rfl

/-- Marks are used only while they are marks of the body. -/
theorem Kept.marksFor_eq (hkept : start.Kept requests) {tree : Dominators}
    (htree : (start.serveAll requests).session.treeFor
      (start.serveAll requests).body = .ok tree) (target : BlockId) :
    (start.serveAll requests).body.marksFor
        (start.serveAll requests).session.marks target =
      Marks.mark (start.serveAll requests).body target := by
  apply Body.marksFor_eq_mark
  cases hold : (start.serveAll requests).session.tree with
  | none =>
      rw [hkept.marks_eq_none hold]
      exact Body.currentMarks_none _
  | some old =>
      obtain ⟨before, type, instr, after, hbuilt⟩ := hkept.builtBy old hold
      obtain ⟨rfl, hcurrent⟩ := InitSession.treeFor_of_some hold htree
      exact hbuilt.body_eq hcurrent ▸ hbuilt.marks

theorem Kept.answer_eq_fresh_or_stale (hkept : start.Kept requests)
    (type : TypeId) (instr : InstrId) :
    (start.serveAll requests).answer type instr =
        (fresh (start.serveAll requests).session.program
          (start.serveAll requests).body).answer type instr ∨
      ∃ tree, (start.serveAll requests).answer type instr =
          .error (.staleDominators tree.builtAt
            (start.serveAll requests).body.revision) ∧
        start.EditedSinceBuilt requests tree := by
  cases htree : (start.serveAll requests).session.tree with
  | none =>
      left
      rw [← eq_fresh htree (hkept.marks_eq_none htree)]
  | some tree =>
      obtain ⟨before, asked, place, after, hbuilt⟩ := hkept.builtBy tree htree
      rcases hbuilt.body_cases with hsame | ⟨hlt, hedited⟩
      · left
        have hdominators := hbuilt.built
        have hmarks := hbuilt.marks
        rw [← hsame] at hdominators hmarks
        exact answer_eq_fresh htree hdominators hmarks type instr
      · have hstale : tree.builtAt ≠ (start.serveAll requests).body.revision := by
          rw [Body.builtAt_of_dominators hbuilt.built]
          exact Nat.ne_of_lt hlt
        apply (answer_eq_fresh_or_refused htree hstale type instr).imp_right
        intro hrefused
        exact ⟨tree, hrefused, before, asked, place, after, hbuilt.split,
          hbuilt.unbuilt, hbuilt.built, hbuilt.silent, hedited⟩

/-- A question is answered as by a session that has just been opened, or is
refused because the dominators kept are those of an earlier revision.  Marks
are used only while they are marks of the body. -/
theorem answer_fresh_or_stale (program : Option Program) (body : Body)
    (requests : List Request) (type : TypeId) (instr : InstrId) :
    let inquiry := (fresh program body).serveAll requests
    (inquiry.answer type instr =
        (fresh program inquiry.body).answer type instr ∨
      ∃ tree, inquiry.answer type instr =
          .error (.staleDominators tree.builtAt inquiry.body.revision) ∧
        (fresh program body).EditedSinceBuilt requests tree) ∧
    ∀ tree, inquiry.session.treeFor inquiry.body = .ok tree →
      ∀ target, inquiry.body.marksFor inquiry.session.marks target =
        Marks.mark inquiry.body target := by
  intro inquiry
  have hkept := kept_fresh program body requests
  have hprogram : inquiry.session.program = program :=
    program_serveAll (fresh program body) requests
  constructor
  · have hanswer := hkept.answer_eq_fresh_or_stale type instr
    rwa [hprogram] at hanswer
  · exact fun tree htree target => hkept.marksFor_eq htree target

end Inquiry

end FlowFacts
