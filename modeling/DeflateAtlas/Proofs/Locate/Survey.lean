import DeflateAtlas.Locate.Survey
import DeflateAtlas.Proofs.Stream.Lawful

/-!
# What the steps of surveys do

A survey that only reads from a lawful stream finds what the stream holds and
leaves it as it was, but for the place.
-/

namespace DeflateAtlas

namespace Survey

theorem fail_ne_ok {τ σ α : Type} (failure : Failure) {bench after : Workbench τ σ} {value : α} :
    (fail failure : Survey τ σ α) bench ≠ .ok value after :=
  nofun

theorem bind_congr_of_ok {τ σ α β : Type} {action : Survey τ σ α} {first second : α → Survey τ σ β}
    (same : ∀ before value after, action before = .ok value after → first value = second value) :
    action >>= first = action >>= second := by
  funext bench
  simp only [bind, EStateM.bind]
  cases run : action bench with
  | ok value after => simp only [same bench value after run]
  | error failure after => rfl

variable {τ σ : Type} [ByteStream σ] [LawfulStream σ] {bench after : Workbench τ σ}
  {content data : Bytes} {readable : Bool} {place length : Nat}

theorem size_eq_ok {size : Nat} (ended : onStream ByteStream.size bench = .ok size after) :
    ∃ content readable, Shows bench.stream content readable ∧ size = content.size ∧
      after = bench := by
  obtain ⟨transform, stream, log⟩ := bench
  cases viewed : LawfulStream.view stream with
  | some seen =>
      simp only [onStream, LawfulStream.size_of_open viewed] at ended
      cases ended
      exact ⟨seen.content, seen.readable, ⟨seen.place, viewed⟩, rfl, rfl⟩
  | none =>
      obtain ⟨failure, left, refused⟩ := LawfulStream.size_of_closed viewed
      simp only [onStream, refused] at ended
      cases ended

theorem size_of_shows (shows : Shows bench.stream content readable) :
    onStream ByteStream.size bench = .ok content.size bench := by
  obtain ⟨transform, stream, log⟩ := bench
  obtain ⟨place, viewed⟩ := shows
  simp only [onStream, LawfulStream.size_of_open viewed]

theorem seek_of_shows (shows : Shows bench.stream content readable)
    (inside : place ≤ content.size) :
    ∃ stream, onStream (ByteStream.seek place) bench = .ok () { bench with stream } ∧
      LawfulStream.view stream = some ⟨content, place, readable⟩ := by
  obtain ⟨transform, stream, log⟩ := bench
  obtain ⟨before, viewed⟩ := shows
  obtain ⟨sought, run, moved⟩ := LawfulStream.seek_of_le viewed inside
  exact ⟨sought, by simp only [onStream, run], moved⟩

theorem readAt_stands (shows : Shows bench.stream content readable)
    (inside : place + length ≤ content.size) (allowed : readable = true ∨ length = 0) :
    ∃ stream, readAt place length bench = .ok (content.slice place length) { bench with stream } ∧
      LawfulStream.view stream = some ⟨content, place + length, readable⟩ := by
  obtain ⟨sought, seek, viewed⟩ := seek_of_shows shows (by omega : place ≤ content.size)
  obtain ⟨read, run, moved⟩ := LawfulStream.read_of_le viewed allowed inside
  refine ⟨read, bind_eq_ok_iff.mpr ⟨(), _, seek, ?_⟩, moved⟩
  simp only [onStream, run]

theorem readAt_of_shows (shows : Shows bench.stream content readable)
    (inside : place + length ≤ content.size) (allowed : readable = true ∨ length = 0) :
    ∃ stream, readAt place length bench = .ok (content.slice place length) { bench with stream } ∧
      Shows stream content readable := by
  obtain ⟨stream, run, viewed⟩ := readAt_stands shows inside allowed
  exact ⟨stream, run, place + length, viewed⟩

theorem readAt_eq_ok (shows : Shows bench.stream content readable)
    (inside : place + length ≤ content.size)
    (ended : readAt place length bench = .ok data after) :
    (readable = true ∨ length = 0) ∧ data = content.slice place length ∧
      ∃ stream, after = { bench with stream } ∧ Shows stream content readable := by
  by_cases allowed : readable = true ∨ length = 0
  · obtain ⟨stream, run, shows⟩ := readAt_of_shows shows inside allowed
    rw [run] at ended
    cases ended
    exact ⟨allowed, rfl, stream, rfl, shows⟩
  · obtain ⟨sought, seek, viewed⟩ := seek_of_shows shows (by omega : place ≤ content.size)
    obtain ⟨failure, left, refused⟩ := LawfulStream.read_of_unreadable viewed allowed
    obtain ⟨⟨⟩, middle, seekRun, ended⟩ := bind_eq_ok_iff.mp ended
    rw [seek] at seekRun
    cases seekRun
    simp only [onStream, refused] at ended
    cases ended

theorem measure_of_ok {τ σ : Type} [Transform τ] {transform : τ} {source : BitSource}
    (ended : (Transform.run transform source Puff.Sink.measuring).1.result = .ok ())
    (stream : σ) (log : Log) :
    ∃ longer, measure source ⟨transform, stream, log⟩ = .ok
      (Transform.run transform source Puff.Sink.measuring).1
      ⟨(Transform.run transform source Puff.Sink.measuring).2, stream, longer⟩ := by
  refine ⟨log ++ (Transform.run transform source Puff.Sink.measuring).1.log, ?_⟩
  simp only [measure, ended]

theorem measure_of_error {τ σ : Type} [Transform τ] {transform : τ} {source : BitSource}
    {failure : Failure}
    (ended : (Transform.run transform source Puff.Sink.measuring).1.result = .error failure)
    (stream : σ) (log : Log) :
    ∃ after, measure source ⟨transform, stream, log⟩ = .error failure after := by
  refine ⟨⟨(Transform.run transform source Puff.Sink.measuring).2, stream,
    log ++ (Transform.run transform source Puff.Sink.measuring).1.log⟩, ?_⟩
  simp only [measure, ended]

end Survey

end DeflateAtlas
