import ConstraintSpace.Query
import ConstraintSpace.Proofs.Space.Failure
import ConstraintSpace.Proofs.Space.Family
import ConstraintSpace.Proofs.Space.Twins

/-!
# A copy behaves as its original

Two families are asked the same requests, one that starts from a space and one that starts
from a copy of it.  Requests may go to any space of the family, so also to copies that were
made on the way.  All answers are the same, and after each of them the domains and the
failure are.  The counts start from zero in the copy and are not asked for.

Where the space has failed, its copy keeps the domains and the failure only.  Then the
requests must not look up propagators or branchers or count them; everything else is
answered from the failure.
-/

namespace ConstraintSpace

/-- What an operation or a look-up gives.  Shared data is told by its content. -/
inductive Value where
  | done
  | id (id : Nat)
  | view (view : IntView)
  | outcomes (outcomes : List Outcome)
  | reason (reason : Option Inconsistency)
  | status (status : SpaceStatus)
  | choice (choice : Choice)
  | found (found : Bool)
  | count (count : Nat)
  | propagator (p : Option Propagator)
  | brancher (b : Option ViewBrancher)
  | reply (reply : Reply)

/-- The operation of an act with the value that it gives. -/
def Space.Act.operation : Space.Act → Operation Value
  | .newInt lower upper => .id <$> Space.newInt lower upper
  | .newSparse values => .id <$> Space.newSparse values
  | .newBool => .view <$> Space.newBool
  | .newFloat lower upper => .id <$> Space.newFloat lower upper
  | .newSet glb lub card => .id <$> Space.newSet glb lub card
  | .post keepGoing narrowings => .outcomes <$> Space.post keepGoing narrowings
  | .addPropagator p rejection => .id <$> Space.addPropagator p rejection
  | .addBrancher b => .id <$> Space.addBrancher b
  | .propagate => .reason <$> Space.propagate
  | .status => .status <$> Space.status
  | .observe observer => .status <$> Space.observe observer
  | .choice => .choice <$> Space.choice
  | .commit chosen alternative => (fun _ => .done) <$> Space.commit chosen alternative
  | .fail => fun s => .ok .done s.fail
  | .copy mode next => fun s => .ok .done (s.copy mode next).1
  | .readJournal => fun s => .ok .done s.readJournal.2
  | .rescript id script => fun s => .ok (.found (Space.rescript id script s).1)
      (Space.rescript id script s).2

/-- What is asked of a family: a move of it, a question about a domain, or a look-up of
the actors of a space. -/
inductive Request where
  | move (move : Move)
  | query (place : Nat) (query : Query)
  | find (place id : Nat) (kind : Propagator.Kind)
  | findBrancher (place id : Nat) (kind : ViewBrancher.Kind)
  | livePropagators (place : Nat)

namespace Request

/-- The request looks up propagators or branchers, or counts them. -/
def looksUp : Request → Bool
  | move (.ask _ (.rescript _ _)) => true
  | find _ _ _ | findBrancher _ _ _ | livePropagators _ => true
  | _ => false

end Request

/-- What is learned from a request: its value or refusal with the domains and the failure
afterwards, the breach that it ended in, or that the space is not there. -/
inductive Answer where
  | given (value : Value) (store : Store) (failure : Option Inconsistency)
  | refused (error : SpaceError) (store : Store) (failure : Option Inconsistency)
  | breached (breach : Breach)
  | absent

namespace Answer

def ofResult : EStateM.Result Fault Space Value → Answer
  | .ok value s => given value s.store s.failure
  | .error (.refused error) s => refused error s.store s.failure
  | .error (.breached breach) _ => breached breach

/-- The answer of a space to something that does not change it. -/
def ofSpace (value : Value) (s : Space) : Answer := given value s.store s.failure

end Answer

namespace Family

/-- What the space at a place answers. -/
def askAt (f : Family) (place : Nat) (answer : Space → Answer) : Answer :=
  match f.space? place with
  | none => .absent
  | some s => answer s

def answer (f : Family) : Request → Answer
  | .move .create | .move .issue => Answer.ofSpace .done .new
  | .move (.ask place act) =>
    f.askAt place fun s => if act.replaces then .absent else .ofResult (act.operation s)
  | .move (.copy place mode) =>
    f.askAt place fun s => .ofSpace .done (s.copy mode f.next).1
  | .move (.drop place) => f.askAt place (.ofSpace .done)
  | .query place query => f.askAt place fun s =>
    match query.answer s.store with
    | .ok reply => .ofSpace (.reply reply) s
    | .error breach => .breached breach
  | .find place id kind =>
    f.askAt place fun s => .ofSpace (.propagator ((s.find? id kind).map Propagator.anonymous)) s
  | .findBrancher place id kind => f.askAt place fun s =>
    .ofSpace (.brancher ((s.findBrancher? id kind).map ViewBrancher.anonymous)) s
  | .livePropagators place => f.askAt place fun s => .ofSpace (.count s.livePropagators) s

/-- The family after a request.  It goes on where a breach did not end everything. -/
def afterRequest (f : Family) : Request → Option Family
  | .move move => f.move move
  | _ => some f

/-- The answers to some requests, one after the other, as far as they get. -/
def answers : List Request → Family → List Answer
  | [], _ => []
  | request :: rest, f =>
    f.answer request ::
      match f.afterRequest request with
      | some f => answers rest f
      | none => []

end Family

namespace Space

variable {s s' : Space} {looks : Bool} {reason : Inconsistency}

theorem Act.resume_operation (act : Act) (s : Space) :
    resume (act.operation s) = act.perform s := by
  have hmap : ∀ {α : Type} (m : Operation α) (f : α → Value),
      resume ((f <$> m) s) = resume (m s) := by
    intro α m f
    simp only [Functor.map, EStateM.map]
    cases m s with
    | ok x t => rfl
    | error fault t => cases fault <;> rfl
  cases act with
  | fail => rfl
  | copy mode next => rfl
  | readJournal => rfl
  | rescript id script => rfl
  | _ => exact hmap _ _

/-- Every operation treats twins alike. -/
theorem Act.fair_operation (act : Act) : Fair act.operation := by
  cases act with
  | newInt lower upper => exact (fair_addInt _).map _
  | newSparse values => exact (fair_addInt _).map _
  | newBool => exact fair_newBool.map _
  | newFloat lower upper => exact (fair_newFloat lower upper).map _
  | newSet glb lub card => exact (fair_newSet glb lub card).map _
  | post keepGoing narrowings => exact (fair_post keepGoing narrowings).map _
  | addPropagator p rejection => exact (fair_addPropagator p rejection).map _
  | addBrancher b => exact (fair_addBrancher b).map _
  | propagate => exact fair_propagate.map _
  | status => exact fair_status.map _
  | observe observer => exact (fair_observe observer).map _
  | choice => exact fair_choice.map _
  | commit chosen alternative => exact (fair_commit chosen alternative).map _
  | fail =>
      intro s s' htwin
      exact Agree.ok Value.done (htwin.failWith .conflict)
  | copy mode next =>
      intro s s' htwin
      exact Agree.ok Value.done (htwin.copy mode next next)
  | readJournal =>
      intro s s' htwin
      have hread : ∀ t : Space, t.Twin t.readJournal.2 := fun t => ⟨t.counts, [], rfl⟩
      exact Agree.ok Value.done (((hread s).symm.trans htwin).trans (hread s'))
  | rescript id script =>
      intro s s' htwin
      obtain ⟨hfound, htwin'⟩ := htwin.rescript id script
      simp only [Act.operation, hfound]
      exact .ok _ htwin'

/-- The spaces answer alike: they are twins or, unless actors are looked up, both failed
with the same reason and the same domains. -/
def Like (looks : Bool) (s s' : Space) : Prop :=
  s.Twin s' ∨ looks = false ∧ ∃ reason, s.failure = some reason ∧ s'.failure = some reason ∧
    s'.store = s.store ∧ s.store.isQuiet = true

theorem Like.store (hlike : s.Like looks s') : s'.store = s.store := by
  rcases hlike with htwin | ⟨-, reason, -, -, hstore, -⟩
  · exact htwin.store
  · exact hstore

theorem Like.failure (hlike : s.Like looks s') : s'.failure = s.failure := by
  rcases hlike with htwin | ⟨-, reason, hfailure, hfailure', -, -⟩
  · exact htwin.failure
  · exact hfailure'.trans hfailure.symm

theorem Like.copy (hlike : s.Like looks s') (mode : CopyMode) (next next' : Nat) :
    (s.copy mode next).1.Like looks (s'.copy mode next').1 := by
  rcases hlike with htwin | ⟨-, reason, hfailure, hfailure', hstore, -⟩
  · exact Or.inl (htwin.copy mode next next')
  · have hcopy : (s.copy mode next).1 = (s'.copy mode next').1 := by
      simp only [Space.copy, hfailure, hfailure', hstore]
    rw [hcopy]
    exact Or.inl (.refl _)

/-- What a failed space gives where no actor is looked up: its failure decides the value,
and its domains stay. -/
theorem failed_operation (hfailure : s.failure = some reason) (hquiet : s.store.isQuiet = true)
    {act : Act} (hkeeps : act.replaces = false)
    (hlooks : ∀ id script, act ≠ .rescript id script) :
    ∃ t, act.operation s = (match act with
        | .propagate => .ok (.reason (some reason)) t
        | .status => .ok (.status .failed) t
        | .commit _ _ | .fail | .readJournal => .ok .done t
        | _ => .error (.refused .spaceFailed) t) ∧
      t.failure = some reason ∧ t.store = s.store := by
  have hdefunct := defunct_of_failed hfailure
  have hok : ∀ {α : Type} {m : Operation α} {x : α} (f : α → Value), m s = .ok x s →
      (f <$> m) s = .ok (f x) s := by
    intro α m x f hrun
    simp only [Functor.map, EStateM.map, hrun]
  have herror : ∀ {α : Type} {m : Operation α} {fault : Fault} (f : α → Value),
      m s = .error fault s → (f <$> m) s = .error fault s := by
    intro α m fault f hrun
    simp only [Functor.map, EStateM.map, hrun]
  cases act with
  | newInt lower upper => exact ⟨s, herror _ (hdefunct.newInt _ _), hfailure, rfl⟩
  | newSparse values => exact ⟨s, herror _ (hdefunct.newSparse _), hfailure, rfl⟩
  | newBool => exact ⟨s, herror _ hdefunct.newBool, hfailure, rfl⟩
  | newFloat lower upper => exact ⟨s, herror _ (hdefunct.newFloat _ _), hfailure, rfl⟩
  | newSet glb lub card => exact ⟨s, herror _ (hdefunct.newSet _ _ _), hfailure, rfl⟩
  | post keepGoing narrowings => exact ⟨s, herror _ (hdefunct.post _ _), hfailure, rfl⟩
  | addPropagator p rejection =>
      exact ⟨s, herror _ (hdefunct.addPropagator _ _), hfailure, rfl⟩
  | addBrancher b => exact ⟨s, herror _ (hdefunct.addBrancher _), hfailure, rfl⟩
  | propagate => exact ⟨s, hok _ hdefunct.propagate, hfailure, rfl⟩
  | status => exact ⟨s, hok _ hdefunct.status, hfailure, rfl⟩
  | observe observer => exact ⟨s, herror _ (hdefunct.observe _), hfailure, rfl⟩
  | choice => exact ⟨s, herror _ hdefunct.choice, hfailure, rfl⟩
  | commit chosen alternative => exact ⟨s, hok _ (hdefunct.commit _ _), hfailure, rfl⟩
  | fail =>
      refine ⟨s.fail, rfl, ?_, ?_⟩
      · simp only [fail, failWith, hfailure, Option.isSome_some, if_true]
      · rw [fail, store_failWith, Store.silence_eq_of_isQuiet hquiet]
  | readJournal => exact ⟨_, rfl, hfailure, rfl⟩
  | copy mode next => simp [Act.replaces] at hkeeps
  | rescript id script => exact absurd rfl (hlooks id script)

/-- The results have the same value or fault, and their spaces answer alike. -/
def LikeResult (looks : Bool) (r r' : EStateM.Result Fault Space Value) : Prop :=
  Answer.ofResult r = Answer.ofResult r' ∧ Option.Rel (Like looks) (resume r) (resume r')

theorem Agree.likeResult {r r' : EStateM.Result Fault Space Value} (hagree : Agree r r') :
    LikeResult looks r r' := by
  cases hagree with
  | ok x htwin =>
      refine ⟨?_, .some (Or.inl htwin)⟩
      simp only [Answer.ofResult, htwin.store, htwin.failure]
  | error fault htwin =>
      cases fault with
      | refused error =>
          refine ⟨?_, .some (Or.inl htwin)⟩
          simp only [Answer.ofResult, htwin.store, htwin.failure]
      | breached breach => exact ⟨rfl, .none⟩

/-- Whatever is asked of spaces that answer alike, they answer alike. -/
theorem Like.operation (hlike : s.Like looks s') {act : Act} (hkeeps : act.replaces = false)
    (hlooks : ∀ id script, act = .rescript id script → looks = true) :
    LikeResult looks (act.operation s) (act.operation s') := by
  rcases hlike with htwin | ⟨hnone, reason, hfailure, hfailure', hstore, hquiet⟩
  · exact (act.fair_operation s s' htwin).likeResult
  have hno : ∀ id script, act ≠ .rescript id script := by
    intro id script heq
    have := hlooks id script heq
    simp [hnone] at this
  obtain ⟨t, hrun, hfailed, hsame⟩ := failed_operation hfailure hquiet hkeeps hno
  obtain ⟨t', hrun', hfailed', hsame'⟩ :=
    failed_operation hfailure' (hstore ▸ hquiet) hkeeps hno
  have hlike : t.Like looks t' :=
    Or.inr ⟨hnone, reason, hfailed, hfailed', by rw [hsame', hstore, hsame], hsame ▸ hquiet⟩
  have hstores := hlike.store
  have hfailures := hlike.failure
  rw [hrun, hrun']
  cases act <;>
    exact ⟨by simp only [Answer.ofResult, hstores, hfailures], .some hlike⟩

/-! ## Look-ups of twins -/

theorem Twin.find? (htwin : s.Twin s') (id : Nat) (kind : Propagator.Kind) :
    (s'.find? id kind).map Propagator.anonymous =
      (s.find? id kind).map Propagator.anonymous := by
  have hsame := htwin.propagator? id
  unfold Space.find?
  cases hp : s.propagator? id with
  | none =>
      rw [hp, Option.map_none, Option.map_eq_none_iff] at hsame
      rw [hsame]
  | some p =>
      rw [hp, Option.map_some] at hsame
      obtain ⟨q, hq, hanonymous⟩ := Option.map_eq_some_iff.mp hsame
      have hkind : q.kind = p.kind := by
        rw [← q.kind_anonymous, hanonymous, p.kind_anonymous]
      rw [hq]
      by_cases heq : p.kind = kind
      · simp [Option.filter, hkind, heq, hanonymous]
      · simp [Option.filter, hkind, heq]

theorem Twin.findBrancher? (htwin : s.Twin s') (id : Nat) (kind : ViewBrancher.Kind) :
    (s'.findBrancher? id kind).map ViewBrancher.anonymous =
      (s.findBrancher? id kind).map ViewBrancher.anonymous := by
  have hsame := htwin.branchers id
  unfold Space.findBrancher?
  cases hb : s.branchers[id]? with
  | none =>
      rw [hb, Option.map_none, Option.map_eq_none_iff] at hsame
      rw [hsame]
  | some b =>
      rw [hb, Option.map_some] at hsame
      obtain ⟨c, hc, hanonymous⟩ := Option.map_eq_some_iff.mp hsame
      rw [hc]
      cases b with
      | observer o =>
          cases c with
          | observer o' => rfl
          | viewValue c => simp [Brancher.anonymous] at hanonymous
      | viewValue b =>
          cases c with
          | observer o' => simp [Brancher.anonymous] at hanonymous
          | viewValue c =>
              simp only [Brancher.anonymous, Brancher.viewValue.injEq] at hanonymous
              have hkind : c.kind = b.kind := by
                rw [← c.kind_anonymous, hanonymous, b.kind_anonymous]
              by_cases heq : b.kind = kind <;> simp [hkind, heq, hanonymous]

theorem livePropagators_anonymous (s : Space) :
    s.anonymous.livePropagators = s.livePropagators := by
  simp only [livePropagators, anonymous, Array.foldl_map]
  congr 1
  funext n slot
  cases hp : slot.propagator <;> simp [Slot.anonymous, hp]

theorem Twin.livePropagators (htwin : s.Twin s') : s'.livePropagators = s.livePropagators := by
  obtain ⟨counts, journal, heq⟩ := htwin
  rw [← s.livePropagators_anonymous, ← s'.livePropagators_anonymous, heq]
  rfl

end Space

namespace Family

variable {f f' : Family} {looks : Bool}

/-- Place by place the spaces of the families answer alike.  The numbers that they have
left need not agree. -/
def Matches (looks : Bool) (f f' : Family) : Prop :=
  f.spaces.length = f'.spaces.length ∧
    ∀ place : Nat, Option.Rel (Space.Like looks) (f.space? place) (f'.space? place)

theorem Matches.push (hmatches : f.Matches looks f') {entry entry' : Option Space}
    (hlike : Option.Rel (Space.Like looks) entry entry') (next next' : Nat) :
    Matches looks { spaces := f.spaces ++ [entry], next }
      { spaces := f'.spaces ++ [entry'], next := next' } := by
  obtain ⟨hlength, hplaces⟩ := hmatches
  constructor
  · simp only [List.length_append, hlength, List.length_singleton]
  · intro place
    rw [space?_push, space?_push, hlength]
    split
    · exact hlike
    · exact hplaces place

theorem Matches.set {place : Nat} {s s' : Space} (hmatches : f.Matches looks f')
    (hs : f.space? place = some s) (hs' : f'.space? place = some s')
    {entry entry' : Option Space} (hlike : Option.Rel (Space.Like looks) entry entry') :
    Matches looks { f with spaces := f.spaces.set place entry }
      { f' with spaces := f'.spaces.set place entry' } := by
  obtain ⟨hlength, hplaces⟩ := hmatches
  constructor
  · simp only [List.length_set, hlength]
  · intro other
    rw [space?_set hs, space?_set hs']
    split
    · exact hlike
    · exact hplaces other

/-- At each place there is either no space in both families, or there are spaces that
answer alike. -/
theorem Matches.cases_at (hmatches : f.Matches looks f') (place : Nat) :
    (f.space? place = none ∧ f'.space? place = none) ∨
      ∃ s s', f.space? place = some s ∧ f'.space? place = some s' ∧ s.Like looks s' := by
  have hplace := hmatches.2 place
  cases hs : f.space? place with
  | none =>
      cases hs' : f'.space? place with
      | none => exact Or.inl ⟨rfl, rfl⟩
      | some s' =>
          rw [hs, hs'] at hplace
          cases hplace
  | some s =>
      cases hs' : f'.space? place with
      | none =>
          rw [hs, hs'] at hplace
          cases hplace
      | some s' =>
          rw [hs, hs'] at hplace
          cases hplace with
          | some hlike => exact Or.inr ⟨s, s', rfl, rfl, hlike⟩

theorem Matches.askAt_eq (hmatches : f.Matches looks f') (place : Nat)
    {answer answer' : Space → Answer}
    (hanswer : ∀ s s', s.Like looks s' → answer s = answer' s') :
    f.askAt place answer = f'.askAt place answer' := by
  unfold askAt
  rcases hmatches.cases_at place with ⟨hs, hs'⟩ | ⟨s, s', hs, hs', hlike⟩
  · rw [hs, hs']
  · rw [hs, hs']
    exact hanswer s s' hlike

theorem ofSpace_eq {s s' : Space} (hlike : s.Like looks s') (value : Value) :
    Answer.ofSpace value s = Answer.ofSpace value s' := by
  rw [Answer.ofSpace, Answer.ofSpace, hlike.store, hlike.failure]

theorem Matches.answer_eq (hmatches : f.Matches looks f') {request : Request}
    (hlooks : request.looksUp = true → looks = true) :
    f.answer request = f'.answer request := by
  have htwin : ∀ {s s' : Space}, request.looksUp = true → s.Like looks s' → s.Twin s' := by
    intro s s' hlooksUp hlike
    rcases hlike with htwin | ⟨hnone, -⟩
    · exact htwin
    · rw [hlooks hlooksUp] at hnone
      cases hnone
  cases request with
  | move move =>
      cases move with
      | create => rfl
      | issue => rfl
      | ask place act =>
          apply hmatches.askAt_eq
          intro s s' hlike
          cases hreplaces : act.replaces with
          | true => rfl
          | false =>
              refine (hlike.operation hreplaces ?_).1
              rintro id script rfl
              exact hlooks rfl
      | copy place mode =>
          apply hmatches.askAt_eq
          intro s s' hlike
          exact ofSpace_eq (hlike.copy mode f.next f'.next) _
      | drop place =>
          apply hmatches.askAt_eq
          intro s s' hlike
          exact ofSpace_eq hlike _
  | query place query =>
      apply hmatches.askAt_eq
      intro s s' hlike
      rw [hlike.store]
      split
      · exact ofSpace_eq hlike _
      · rfl
  | find place id kind =>
      apply hmatches.askAt_eq
      intro s s' hlike
      rw [(htwin rfl hlike).find?]
      exact ofSpace_eq hlike _
  | findBrancher place id kind =>
      apply hmatches.askAt_eq
      intro s s' hlike
      rw [(htwin rfl hlike).findBrancher?]
      exact ofSpace_eq hlike _
  | livePropagators place =>
      apply hmatches.askAt_eq
      intro s s' hlike
      rw [(htwin rfl hlike).livePropagators]
      exact ofSpace_eq hlike _

theorem Matches.afterRequest (hmatches : f.Matches looks f') {request : Request}
    (hlooks : request.looksUp = true → looks = true) :
    Option.Rel (Matches looks) (f.afterRequest request) (f'.afterRequest request) := by
  cases request with
  | move move =>
      cases move with
      | create => exact .some (hmatches.push (.some (Or.inl (.refl _))) _ _)
      | issue => exact .some hmatches
      | ask place act =>
          simp only [Family.afterRequest, Family.move]
          rcases hmatches.cases_at place with ⟨hs, hs'⟩ | ⟨s, s', hs, hs', hlike⟩
          · rw [hs, hs']
            exact .none
          rw [hs, hs']
          cases hreplaces : act.replaces with
          | true => exact .none
          | false =>
              have hafter : Option.Rel (Space.Like looks) (act.perform s) (act.perform s') := by
                rw [← act.resume_operation, ← act.resume_operation]
                refine (hlike.operation hreplaces ?_).2
                rintro id script rfl
                exact hlooks rfl
              simp only [Bool.false_eq_true, if_false]
              generalize act.perform s = after at hafter
              generalize act.perform s' = after' at hafter
              cases hafter with
              | none => exact .none
              | some hlike' => exact .some (hmatches.set hs hs' (.some hlike'))
      | copy place mode =>
          simp only [Family.afterRequest, Family.move]
          rcases hmatches.cases_at place with ⟨hs, hs'⟩ | ⟨s, s', hs, hs', hlike⟩
          · rw [hs, hs']
            exact .none
          · rw [hs, hs']
            exact .some (hmatches.push (.some (hlike.copy mode f.next f'.next)) _ _)
      | drop place =>
          simp only [Family.afterRequest, Family.move]
          rcases hmatches.cases_at place with ⟨hs, hs'⟩ | ⟨s, s', hs, hs', hlike⟩
          · rw [hs, hs']
            exact .none
          · rw [hs, hs']
            exact .some (hmatches.set hs hs' .none)
  | _ => exact .some hmatches

/-- Families that match give the same answers to all requests. -/
theorem Matches.answers_eq (hmatches : f.Matches looks f') {requests : List Request}
    (hlooks : ∀ request ∈ requests, request.looksUp = true → looks = true) :
    answers requests f = answers requests f' := by
  induction requests generalizing f f' with
  | nil => rfl
  | cons request rest ih =>
      have hfirst := hlooks request List.mem_cons_self
      have hafter := hmatches.afterRequest hfirst
      simp only [answers, hmatches.answer_eq hfirst, List.cons.injEq, true_and]
      generalize f.afterRequest request = after at hafter
      generalize f'.afterRequest request = after' at hafter
      cases hafter with
      | none => rfl
      | some hmatches' =>
          exact ih hmatches' fun other hother => hlooks other (List.mem_cons_of_mem request hother)

end Family

namespace Space

variable {s : Space}

theorem counts_foldl_tellCopy (mode : CopyMode) (actors : List Noticed)
    (state : Space × CopyContext) :
    (actors.foldl (tellCopy mode) state).1.counts = state.1.counts := by
  induction actors generalizing state with
  | nil => rfl
  | cons actor rest ih =>
      obtain ⟨s, context⟩ := state
      rw [List.foldl_cons, ih]
      cases actor <;> simp only [tellCopy] <;> split <;> rfl

theorem counts_copy (s : Space) (mode : CopyMode) (next : Nat) :
    (s.copy mode next).1.counts = .zero := by
  unfold copy
  cases s.failure with
  | some reason => rfl
  | none => exact counts_foldl_tellCopy mode s.noticed _

/-- A reachable space and its copy answer like each other. -/
theorem Tidy.like_copy (htidy : s.Tidy) (mode : CopyMode) (next : Nat) :
    s.Like s.failure.isNone (s.copy mode next).1 := by
  cases hfailure : s.failure with
  | none => exact Or.inl (twin_copy hfailure mode next)
  | some reason =>
      refine Or.inr ⟨rfl, reason, hfailure, ?_, ?_, htidy.quiet⟩ <;>
        simp only [copy, hfailure]

/-- The copy of a space in either mode starts with counts of zero and gives the answers
that the space gives to any requests, whatever numbers are left for shared instances.  For
a failed space the requests look up no actors. -/
theorem copy_answers_alike (hreaches : new.Reaches s) (mode : CopyMode) (next left left' : Nat)
    (requests : List Request)
    (hlooks : s.failure = none ∨ ∀ request ∈ requests, request.looksUp = false) :
    (s.copy mode next).1.counts = .zero ∧
      Family.answers requests { spaces := [some s], next := left } =
        Family.answers requests { spaces := [some (s.copy mode next).1], next := left' } := by
  refine ⟨counts_copy s mode next, ?_⟩
  have hlike := (hreaches.tidy tidy_new).like_copy mode next
  have hmatches : Family.Matches s.failure.isNone { spaces := [some s], next := left }
      { spaces := [some (s.copy mode next).1], next := left' } := by
    refine ⟨rfl, fun place => ?_⟩
    cases place with
    | zero => exact .some hlike
    | succ place => exact .none
  apply hmatches.answers_eq
  intro request hrequest hlooksUp
  rcases hlooks with hok | hnone
  · rw [hok, Option.isNone_none]
  · rw [hnone request hrequest] at hlooksUp
    cases hlooksUp

/-- A random choice is asked of a space, of a copy of it and of a copy of that copy. -/
theorem random_choices_of_copies :
    let brancher : ViewBrancher :=
      { start := 0, selector := .firstFail
        branching := .int [.var 0, .var 1] (.random (.ofSeed 7)) .assignOrExclude
        label := none, selectionNotices := false, commitNotices := false }
    let acts := [.newInt 0 30, .newInt 0 3, .addPropagator (.notEqual (.var 0) (.var 1)) none,
      .addBrancher (.viewValue brancher)]
    let requests : List Request := [.move (.ask 0 .status), .move (.copy 0 .sharing),
      .move (.ask 1 .choice), .move (.ask 0 .choice), .livePropagators 1]
    ∃ s, performAll acts new = some s ∧ s.failure = none ∧
      (s.copy .independent 0).1.counts = .zero ∧
      (Family.answers requests { spaces := [some s], next := 0 }).length = 5 ∧
      Family.answers requests { spaces := [some s], next := 0 } =
        Family.answers requests { spaces := [some (s.copy .independent 0).1], next := 4 } := by
  intro brancher acts requests
  have hrun : (performAll acts new).map (fun s => (s.failure,
      (Family.answers requests { spaces := [some s], next := 0 }).length)) = some (none, 5) := by
    decide +kernel
  obtain ⟨s, hperform, hs⟩ := Option.map_eq_some_iff.mp hrun
  obtain ⟨hok, hlength⟩ := Prod.mk.inj hs
  obtain ⟨hcounts, hanswers⟩ := copy_answers_alike (reaches_of_performAll hperform) .independent
    0 0 4 requests (Or.inl hok)
  exact ⟨s, hperform, hok, hcounts, hlength, hanswers⟩

end Space

end ConstraintSpace
