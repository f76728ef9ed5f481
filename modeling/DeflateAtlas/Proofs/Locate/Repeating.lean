import DeflateAtlas.Proofs.Locate.Splitting
import DeflateAtlas.Proofs.Puff.Reusing
import DeflateAtlas.Proofs.Stream.Predictable
import Mathlib.Data.List.Forall2

/-!
# Surveys that can be repeated

Streams move when they are read and encoders may keep buffers, but neither makes a
difference to the next survey of a stream.  A survey can be repeated if it has the
same answer on any two workbenches whose streams hold the same bytes, and leaves
them holding these bytes; sequences of such surveys can be repeated.  So the answer
to a batch is made of the answers to its items, each asked by itself on a workbench
of its own.
-/

namespace DeflateAtlas

variable {τ υ σ α β : Type}

namespace Survey

/-- What a survey gives, or how it fails. -/
def answer (survey : Survey τ σ α) (bench : Workbench τ σ) : Except Failure α :=
  (survey.outcome bench).1

theorem answer_of_ok {survey : Survey τ σ α} {bench after : Workbench τ σ} {value : α}
    (ended : survey bench = .ok value after) : survey.answer bench = .ok value := by
  rw [answer, outcome, ended]

theorem answer_of_error {survey : Survey τ σ α} {bench after : Workbench τ σ}
    {failure : Failure} (ended : survey bench = .error failure after) :
    survey.answer bench = .error failure := by
  rw [answer, outcome, ended]

theorem answer_eq_ok_iff {survey : Survey τ σ α} {bench : Workbench τ σ} {value : α} :
    survey.answer bench = .ok value ↔ ∃ after, survey bench = .ok value after := by
  rw [answer, outcome]
  cases survey bench with
  | ok given after => simp
  | error failure after => simp

/-- The streams of two workbenches are related. -/
def OnStreams (related : σ → σ → Prop) (bench : Workbench τ σ) (other : Workbench υ σ) : Prop :=
  related bench.stream other.stream

/-- One survey comes to what another one comes to, if the streams are related before. -/
abbrev Repeats (before after : σ → σ → Prop) (survey : Survey τ σ α) (again : Survey υ σ α) :
    Prop :=
  Follows (OnStreams before) (OnStreams after) (fun _ _ => True) (fun _ => False) survey again

theorem answer_eq {before after : σ → σ → Prop} {survey : Survey τ σ α} {again : Survey υ σ α}
    (repeats : Repeats before after survey again) {bench : Workbench τ σ} {other : Workbench υ σ}
    (related : before bench.stream other.stream) : survey.answer bench = again.answer other := by
  have agree := repeats related
  rw [answer, outcome, answer, outcome]
  generalize survey bench = ended at agree ⊢
  generalize again other = otherEnded at agree ⊢
  cases agree with
  | ok value => rfl
  | error failure => rfl
  | excused impossible => exact impossible.elim

/-! ## Steps -/

section Steps

variable {before after : σ → σ → Prop}

theorem repeats_note (events : Log) :
    Repeats before before (note events : Survey τ σ Unit) (note events : Survey υ σ Unit) :=
  fun _ _ related => .ok () related

theorem repeats_throw (failure : Failure) :
    Repeats before after (throw failure : Survey τ σ α) (throw failure : Survey υ σ α) :=
  Follows.throw failure fun _ _ _ => trivial

theorem repeats_fail (failure : Failure) :
    Repeats before after (fail failure : Survey τ σ α) (fail failure : Survey υ σ α) :=
  (repeats_note _).bind fun _ => repeats_throw failure

theorem repeats_onStream {action : StreamAction σ α}
    (follows : Follows before after (fun _ _ => True) (fun _ => False) action action) :
    Repeats before after (onStream action : Survey τ σ α) (onStream action : Survey υ σ α) := by
  rintro ⟨transform, stream, log⟩ ⟨otherTransform, otherStream, otherLog⟩ related
  have agree := follows related
  simp only [onStream]
  dsimp only at agree
  generalize action stream = ended at agree ⊢
  generalize action otherStream = otherEnded at agree ⊢
  cases agree with
  | ok value stillRelated => exact .ok value stillRelated
  | error failure => exact .error failure trivial
  | excused impossible => exact impossible.elim

theorem repeats_measure [Transform τ] [Encodes τ] [Transform υ] [Encodes υ] (source : BitSource) :
    Repeats before before (measure source : Survey τ σ Transformed)
      (measure source : Survey υ σ Transformed) := by
  rintro ⟨transform, stream, log⟩ ⟨otherTransform, otherStream, otherLog⟩ related
  simp only [measure, Encodes.run_eq]
  cases (PuffEncoder.encode source Puff.Sink.measuring).result with
  | ok value => exact .ok _ related
  | error failure => exact .error failure trivial

theorem repeats_within {content : Bytes} {extent : ByteExtent} {failure : Failure}
    {action : Survey τ σ α} {again : Survey υ σ α}
    (rest : extent.offset ≤ content.size → Repeats before after action again) :
    Repeats before after (if ¬ extent.endsWithin content.size then fail failure else action)
      (if ¬ extent.endsWithin content.size then fail failure else again) := by
  by_cases within : extent.endsWithin content.size
  · rw [if_neg (not_not_intro within), if_neg (not_not_intro within)]
    have inside := (Extent.endsWithin_iff.mp within).2
    exact rest (Nat.le_trans (Nat.le_add_right _ _) inside)
  · rw [if_pos within, if_pos within]
    exact repeats_fail failure

end Steps

/-! ## Streams that hold the same bytes -/

section Streams

variable [ByteStream σ] [LawfulStream σ] {content : Bytes} {readable : Bool}

/-- Two streams hold the same bytes. -/
def Alike (content : Bytes) (readable : Bool) (stream other : σ) : Prop :=
  Shows stream content readable ∧ Shows other content readable

/-- Two streams hold the same bytes and stand at the same place. -/
def AlikeAt (content : Bytes) (readable : Bool) (stream other : σ) : Prop :=
  ∃ place ≤ content.size, LawfulStream.view stream = some ⟨content, place, readable⟩ ∧
    LawfulStream.view other = some ⟨content, place, readable⟩

theorem AlikeAt.alike {stream other : σ} (alike : AlikeAt content readable stream other) :
    Alike content readable stream other := by
  obtain ⟨place, -, viewed, otherViewed⟩ := alike
  exact ⟨⟨place, viewed⟩, ⟨place, otherViewed⟩⟩

theorem follows_seek {place : Nat} (inside : place ≤ content.size) :
    Follows (Alike content readable) (AlikeAt content readable) (fun _ _ => True) (fun _ => False)
      (ByteStream.seek place : StreamAction σ Unit) (ByteStream.seek place) := by
  rintro stream other ⟨⟨_, viewed⟩, ⟨_, otherViewed⟩⟩
  obtain ⟨after, run, moved⟩ := LawfulStream.seek_of_le viewed inside
  obtain ⟨otherAfter, otherRun, otherMoved⟩ := LawfulStream.seek_of_le otherViewed inside
  rw [run, otherRun]
  exact .ok () ⟨place, inside, moved, otherMoved⟩

theorem follows_read [PredictableStream σ] (length : Nat) :
    Follows (AlikeAt content readable) (AlikeAt content readable) (fun _ _ => True)
      (fun _ => False) (ByteStream.read length : StreamAction σ Bytes)
      (ByteStream.read length) := by
  rintro stream other ⟨place, inside, viewed, otherViewed⟩
  by_cases granted : StreamView.Grants ⟨content, place, readable⟩ length
  · obtain ⟨after, run, moved⟩ := LawfulStream.read_of_le viewed granted.1 granted.2
    obtain ⟨otherAfter, otherRun, otherMoved⟩ :=
      LawfulStream.read_of_le otherViewed granted.1 granted.2
    rw [run, otherRun]
    exact .ok _ ⟨place + length, granted.2, moved, otherMoved⟩
  · obtain ⟨after, run⟩ := PredictableStream.read_of_refused viewed inside granted
    obtain ⟨otherAfter, otherRun⟩ :=
      PredictableStream.read_of_refused otherViewed inside granted
    rw [run, otherRun]
    exact .error _ trivial

theorem repeats_size {after : σ → σ → Prop} {next : Nat → Survey τ σ α}
    {otherNext : Nat → Survey υ σ α}
    (rest : Repeats (Alike content readable) after (next content.size)
      (otherNext content.size)) :
    Repeats (Alike content readable) after (onStream ByteStream.size >>= next)
      (onStream ByteStream.size >>= otherNext) := by
  intro bench other related
  rw [bind_of_ok (size_of_shows related.1), bind_of_ok (size_of_shows related.2)]
  exact rest related

variable [PredictableStream σ]

theorem inside_of_readAt {bench after : Workbench τ σ} {place length : Nat} {data : Bytes}
    (shows : Shows bench.stream content readable) (inside : place ≤ content.size)
    (ended : readAt place length bench = .ok data after) : place + length ≤ content.size := by
  obtain ⟨sought, seek, viewed⟩ := seek_of_shows shows inside
  rw [readAt, bind_of_ok seek] at ended
  apply Decidable.by_contra
  intro beyond
  obtain ⟨left, refused⟩ :=
    PredictableStream.read_of_refused viewed inside fun granted => beyond granted.2
  simp only [onStream, refused] at ended
  cases ended

theorem repeats_readAt {place : Nat} (inside : place ≤ content.size) (length : Nat) :
    Repeats (Alike content readable) (AlikeAt content readable)
      (readAt place length : Survey τ σ Bytes) (readAt place length : Survey υ σ Bytes) :=
  (repeats_onStream (follows_seek inside)).bind fun _ => repeats_onStream (follows_read length)

theorem repeats_readAt_alike {place : Nat} (inside : place ≤ content.size) (length : Nat) :
    Repeats (Alike content readable) (Alike content readable)
      (readAt place length : Survey τ σ Bytes) (readAt place length : Survey υ σ Bytes) :=
  (repeats_readAt inside length).weaken fun _ _ => AlikeAt.alike

variable [Transform τ] [Encodes τ] [Transform υ] [Encodes υ]

theorem repeats_blocksOfExtent (extent : ByteExtent) :
    Repeats (Alike content readable) (Alike content readable)
      (blocksOfExtent content.size extent : Survey τ σ (List BitExtent))
      (blocksOfExtent content.size extent : Survey υ σ (List BitExtent)) := by
  refine repeats_within fun inside => ?_
  refine (repeats_readAt_alike inside _).bind fun data => (repeats_measure _).bind fun _ => ?_
  exact Follows.ite (repeats_fail _) (Follows.pure _)

end Streams

end Survey

/-! ## Batches -/

/-- What comes of some items, one after another. -/
def inTurn {m : Type → Type} [Monad m] (action : α → m (List β)) (items : List α) : m (List β) := do
  let groups ← items.mapM action
  return groups.flatten

theorem Except.bind_eq_ok_iff {ε : Type} {action : Except ε α} {next : α → Except ε β} {value : β} :
    action >>= next = .ok value ↔ ∃ middle, action = .ok middle ∧ next middle = .ok value := by
  cases action with
  | error failure => exact iff_of_false nofun nofun
  | ok middle => simp [bind, Except.bind]

section InTurn

variable {m : Type → Type} [Monad m] [LawfulMonad m] {action : α → m (List β)}

theorem inTurn_nil : inTurn action [] = pure [] := by
  simp [inTurn]

theorem inTurn_cons (item : α) (items : List α) :
    inTurn action (item :: items) = do
      let results ← action item
      let others ← inTurn action items
      return results ++ others := by
  simp [inTurn]

theorem inTurn_singleton (item : α) : inTurn action [item] = action item := by
  simp [inTurn]

theorem inTurn_append (items others : List α) :
    inTurn action (items ++ others) = do
      let results ← inTurn action items
      let otherResults ← inTurn action others
      return results ++ otherResults := by
  simp [inTurn]

end InTurn

/-- The first item that fails is the failure of all of them. -/
theorem inTurn_eq_error_iff {action : α → Except Failure (List β)} {items : List α}
    {failure : Failure} :
    inTurn action items = .error failure ↔
      ∃ before item behind, items = before ++ item :: behind ∧
        (∀ earlier ∈ before, ∃ results, action earlier = .ok results) ∧
        action item = .error failure := by
  induction items with
  | nil =>
      rw [inTurn_nil]
      constructor
      · nofun
      · rintro ⟨before, item, behind, split, -⟩
        exact absurd split (by simp)
  | cons first items ih =>
      rw [inTurn_cons]
      cases run : action first with
      | error early =>
          constructor
          · rintro ⟨⟩
            exact ⟨[], first, items, rfl, nofun, run⟩
          · rintro ⟨before, item, behind, split, succeed, failed⟩
            cases before with
            | nil =>
                cases split
                rw [run] at failed
                cases failed
                rfl
            | cons earlier before =>
                cases split
                obtain ⟨results, ended⟩ := succeed first (List.mem_cons_self ..)
                rw [run] at ended
                cases ended
      | ok results =>
          have same : (do
              let others ← inTurn action items
              return results ++ others) = .error failure ↔
                inTurn action items = .error failure := by
            cases inTurn action items with
            | ok others => exact iff_of_false nofun nofun
            | error late => exact Iff.rfl
          refine same.trans (ih.trans ?_)
          constructor
          · rintro ⟨before, item, behind, rfl, succeed, failed⟩
            exact ⟨first :: before, item, behind, rfl,
              List.forall_mem_cons.mpr ⟨⟨results, run⟩, succeed⟩, failed⟩
          · rintro ⟨before, item, behind, split, succeed, failed⟩
            cases before with
            | nil =>
                cases split
                rw [run] at failed
                cases failed
            | cons earlier before =>
                cases split
                exact ⟨before, item, behind, rfl, (List.forall_mem_cons.mp succeed).2, failed⟩

/-- Two things are done for each item, one after the other or first one for all of them and then the
other: nothing becomes different if all goes well. -/
theorem inTurn_bind_eq_ok_iff {γ : Type} {first : α → Except Failure γ}
    {second : γ → Except Failure (List β)} {items : List α} {results : List β} :
    inTurn (fun item => first item >>= second) items = .ok results ↔
      ∃ middles, List.Forall₂ (fun item middle => first item = .ok middle) items middles ∧
        inTurn second middles = .ok results := by
  induction items generalizing results with
  | nil =>
      rw [inTurn_nil]
      constructor
      · intro nothing
        exact ⟨[], .nil, inTurn_nil.trans nothing⟩
      · rintro ⟨middles, none, ended⟩
        cases none
        exact inTurn_nil.symm.trans ended
  | cons item items ih =>
      rw [inTurn_cons]
      constructor
      · intro ended
        obtain ⟨given, whole, ended⟩ := Except.bind_eq_ok_iff.mp ended
        obtain ⟨middle, run, done⟩ := Except.bind_eq_ok_iff.mp whole
        obtain ⟨others, rest, ended⟩ := Except.bind_eq_ok_iff.mp ended
        obtain ⟨middles, runs, otherwise⟩ := ih.mp rest
        refine ⟨middle :: middles, .cons run runs, ?_⟩
        rw [inTurn_cons, done, otherwise]
        exact ended
      · rintro ⟨_, runs, ended⟩
        cases runs with
        | cons run runs =>
            rw [inTurn_cons] at ended
            obtain ⟨given, done, ended⟩ := Except.bind_eq_ok_iff.mp ended
            obtain ⟨others, rest, ended⟩ := Except.bind_eq_ok_iff.mp ended
            rw [run, ih.mpr ⟨_, runs, rest⟩]
            exact Except.bind_eq_ok_iff.mpr ⟨given, done, ended⟩

namespace Survey

variable [ByteStream σ] [LawfulStream σ] {content : Bytes} {readable : Bool}

/-- A survey that leaves the stream with the bytes it holds, and has the same answer again. -/
abbrev Repeatable (content : Bytes) (readable : Bool) (survey : Survey τ σ α) : Prop :=
  Repeats (Alike content readable) (Alike content readable) survey survey

variable {bench fresh : Workbench τ σ}

theorem answer_bind {action : Survey τ σ α} {next : α → Survey τ σ β}
    (first : Repeatable content readable action)
    (rest : ∀ value, Repeatable content readable (next value))
    (shows : Shows bench.stream content readable)
    (freshShows : Shows fresh.stream content readable) :
    (action >>= next).answer bench =
      action.answer fresh >>= fun value => (next value).answer fresh := by
  have same := answer_eq first ⟨shows, freshShows⟩
  rw [← same]
  cases run : action bench with
  | ok value after =>
      obtain ⟨_, -, left, -⟩ := (first ⟨shows, freshShows⟩).eq_ok run
      have again := answer_eq (rest value) ⟨left, freshShows⟩
      rw [answer_of_ok run, answer, outcome, bind_of_ok run]
      exact again
  | error failure after =>
      rw [answer_of_error run, answer_of_error (bind_of_error run)]
      rfl

theorem repeats_inTurn {action : α → Survey τ σ (List β)} {again : α → Survey υ σ (List β)}
    (repeats : ∀ item, Repeats (Alike content readable) (Alike content readable) (action item)
      (again item)) (items : List α) :
    Repeats (Alike content readable) (Alike content readable) (inTurn action items)
      (inTurn again items) := by
  induction items with
  | nil =>
      rw [inTurn_nil, inTurn_nil]
      exact Follows.pure []
  | cons item items ih =>
      rw [inTurn_cons, inTurn_cons]
      exact (repeats item).bind fun _ => ih.bind fun _ => Follows.pure _

theorem answer_inTurn {action : α → Survey τ σ (List β)}
    (repeatable : ∀ item, Repeatable content readable (action item))
    (shows : Shows bench.stream content readable)
    (freshShows : Shows fresh.stream content readable) (items : List α) :
    (inTurn action items).answer bench = inTurn (fun item => (action item).answer fresh) items := by
  induction items generalizing bench with
  | nil =>
      rw [inTurn_nil, inTurn_nil]
      rfl
  | cons item items ih =>
      have others := repeats_inTurn repeatable items
      rw [inTurn_cons, inTurn_cons, answer_bind (repeatable item)
        (fun _ => others.bind fun _ => Follows.pure _) shows freshShows]
      refine congrArg _ (funext fun results => ?_)
      rw [answer_bind others (fun _ => Follows.pure _) freshShows freshShows, ih freshShows]
      rfl

end Survey

end DeflateAtlas
