import DeflateAtlas.Proofs.Bytes
import DeflateAtlas.Proofs.Dialogue
import DeflateAtlas.Proofs.Stream.Lawful

/-!
# Files and buffers behind the same calls

To those who call it, an open stream is a number of bytes and a place among them, and
a closed one just bytes.  Such an image can serve the calls itself, once it is known which
reads and writes are refused; a file and a buffer answer every call as their images do.
So what holds of images holds of both, and where both refuse the same calls nobody can
tell the one from the other.
-/

namespace DeflateAtlas

open Server (report report_of_ok report_of_error)

/-- A call of one of the operations of a stream. -/
inductive StreamCall
  | size
  | offset
  | seek (place : Nat)
  | read (length : Nat)
  | write (bytes : Bytes)
  | close
  deriving DecidableEq, Repr

/-- What a call gives; of a failure only its kind is told. -/
inductive StreamAnswer
  | number (value : Nat)
  | bytes (value : Bytes)
  | done
  | failed (kind : FailureKind)
  deriving DecidableEq, Repr

/-- The answer to a call that fails. -/
def StreamAnswer.ofFailure (failure : Failure) : StreamAnswer :=
  .failed failure.kind

/-- A stream serves calls. -/
def ByteStream.serve {σ : Type} [ByteStream σ] : Server StreamCall σ StreamAnswer
  | .size => report .number .ofFailure size
  | .offset => report .number .ofFailure offset
  | .seek place => report (fun () => .done) .ofFailure (seek place)
  | .read length => report .bytes .ofFailure (read length)
  | .write bytes => report (fun () => .done) .ofFailure (write bytes)
  | .close => report (fun () => .done) .ofFailure close

/-! ## Images -/

/-- Which reads and writes are refused, and how. -/
structure StreamAccess where
  refusesRead : (length : Nat) → Option FailureKind
  refusesWrite : (length : Nat) → Option FailureKind

/-- The bytes of a stream and, as long as it is open, the place where it stands. -/
structure StreamImage where
  content : Bytes
  place? : Option Nat
  deriving DecidableEq, Repr

namespace StreamImage

/-- An image of an open stream serves calls. -/
def serveAt (access : StreamAccess) (content : Bytes) (place : Nat) :
    StreamCall → StreamAnswer × StreamImage
  | .size => (.number content.size, ⟨content, some place⟩)
  | .offset => (.number place, ⟨content, some place⟩)
  | .seek target =>
      if content.size < target then
        (.failed .outOfBounds, ⟨content, some place⟩)
      else
        (.done, ⟨content, some target⟩)
  | .read length =>
      match access.refusesRead length with
      | some kind => (.failed kind, ⟨content, some place⟩)
      | none =>
          if content.size < place + length then
            (.failed .shortRead, ⟨content, some place⟩)
          else
            (.bytes (content.slice place length), ⟨content, some (place + length)⟩)
  | .write bytes =>
      match access.refusesWrite bytes.size with
      | some kind => (.failed kind, ⟨content, some place⟩)
      | none => (.done, ⟨content.overwrite place bytes, some (place + bytes.size)⟩)
  | .close => (.done, ⟨content, none⟩)

/-- An image serves calls. -/
def serve (access : StreamAccess) : Server StreamCall StreamImage StreamAnswer
  | call, ⟨content, some place⟩ => serveAt access content place call
  | _, ⟨content, none⟩ => (.failed .streamClosed, ⟨content, none⟩)

variable {access : StreamAccess} {call : StreamCall} {image : StreamImage}

theorem serve_of_open {place : Nat} (stands : image.place? = some place) :
    serve access call image = serveAt access image.content place call := by
  obtain ⟨content, place?⟩ := image
  subst stands
  rfl

theorem serve_of_closed (closed : image.place? = none) :
    serve access call image = (.failed .streamClosed, image) := by
  obtain ⟨content, place?⟩ := image
  subst closed
  rfl

theorem left_of_closed (closed : image.place? = none) (calls : List StreamCall) :
    (serve access).left calls image = image := by
  induction calls with
  | nil => rfl
  | cons call calls ih => rw [Server.left, serve_of_closed closed, ih]

theorem left_of_close_mem {calls : List StreamCall} (closes : .close ∈ calls) :
    ((serve access).left calls image).place? = none := by
  obtain ⟨earlier, later, rfl⟩ := List.append_of_mem closes
  have closed (before : StreamImage) : (serve access .close before).2.place? = none := by
    obtain ⟨content, _ | place⟩ := before <;> rfl
  rw [Server.left_append, Server.left, left_of_closed (closed _)]
  exact closed _

/-- Only the calls that are refused make a difference. -/
theorem serve_congr {other : StreamAccess} (reads : access.refusesRead = other.refusesRead)
    (writes : ∀ bytes, call = .write bytes →
      access.refusesWrite bytes.size = other.refusesWrite bytes.size) :
    serve access call image = serve other call image := by
  obtain ⟨content, _ | place⟩ := image
  · rfl
  · cases call with
    | read length => simp only [serve, serveAt, reads]
    | write bytes => simp only [serve, serveAt, writes bytes rfl]
    | _ => rfl

/-- A call that fails changes nothing. -/
theorem serve_of_failed {kind : FailureKind} (failed : (serve access call image).1 = .failed kind) :
    (serve access call image).2 = image := by
  obtain ⟨content, _ | place⟩ := image
  · rfl
  · cases call with
    | size => rfl
    | offset => rfl
    | close => cases failed
    | seek target =>
        simp only [serve, serveAt] at failed ⊢
        split at failed
        · rename_i beyond
          rw [if_pos beyond]
        · cases failed
    | read length =>
        simp only [serve, serveAt] at failed ⊢
        split
        · rfl
        · rename_i granted
          rw [granted] at failed
          split
          · rfl
          · rename_i inside
            rw [if_neg inside] at failed
            cases failed
    | write bytes =>
        simp only [serve, serveAt] at failed ⊢
        split
        · rfl
        · rename_i granted
          rw [granted] at failed
          cases failed

/-- Nothing but closing closes a stream. -/
theorem isSome_serve (isOpen : image.place?.isSome = true) (other : call ≠ .close) :
    (serve access call image).2.place?.isSome = true := by
  obtain ⟨content, _ | place⟩ := image
  · cases isOpen
  · cases call with
    | size => rfl
    | offset => rfl
    | close => exact absurd rfl other
    | seek target =>
        simp only [serve, serveAt]
        split <;> rfl
    | read length =>
        simp only [serve, serveAt]
        split
        · rfl
        · split <;> rfl
    | write bytes =>
        simp only [serve, serveAt]
        split <;> rfl

theorem isSome_left (isOpen : image.place?.isSome = true) {calls : List StreamCall}
    (others : .close ∉ calls) : ((serve access).left calls image).place?.isSome = true := by
  induction calls generalizing image with
  | nil => exact isOpen
  | cons call calls ih =>
      rw [List.mem_cons, not_or] at others
      obtain ⟨first, rest⟩ := others
      exact ih (isSome_serve isOpen (Ne.symm first)) rest

end StreamImage

/-- An operation that fails or else does what it should serves a call as the image does. -/
theorem serves_of_guard {σ α : Type} {shown : σ → StreamImage → Prop} {refused : Prop}
    [Decidable refused] {action : StreamAction σ α} {stream after : σ} {failure : Failure}
    {value : α} {reply : α → StreamAnswer} {image later : StreamImage}
    (run : action stream = if refused then .error failure stream else .ok value after)
    (kept : shown stream image) (served : ¬ refused → shown after later) :
    let byImage := if refused then (.failed failure.kind, image) else (reply value, later)
    (report reply .ofFailure action stream).1 = byImage.1 ∧
      shown (report reply .ofFailure action stream).2 byImage.2 := by
  by_cases fails : refused
  · rw [if_pos fails] at run
    rw [report_of_error run, if_pos fails]
    exact ⟨rfl, kept⟩
  · rw [if_neg fails] at run
    rw [report_of_ok run, if_neg fails]
    exact ⟨rfl, served fails⟩

/-! ## Buffers -/

namespace BufferStream

/-- A buffer gives all bytes that it has, and takes some only if it is writable. -/
def access (writable : Bool) : StreamAccess where
  refusesRead _ := none
  refusesWrite _ := if writable then none else some .invalidParameter

/-- What a buffer stream looks like. -/
def image (stream : BufferStream) : StreamImage :=
  ⟨stream.content, if stream.isOpen then some stream.place else none⟩

/-- A buffer stream that is closed, or stands within its buffer. -/
inductive HasImage (writable : Bool) : BufferStream → StreamImage → Prop
  | opened {content : Bytes} {place : Nat} (within : place ≤ content.size) :
      HasImage writable ⟨content, place, true, writable⟩ ⟨content, some place⟩
  | closed (content : Bytes) (place : Nat) :
      HasImage writable ⟨content, place, false, writable⟩ ⟨content, none⟩

theorem HasImage.depicts {writable : Bool} {stream : BufferStream} {seen : StreamImage}
    (shown : HasImage writable stream seen) :
    image stream = seen ∧ ∀ place ∈ seen.place?, place ≤ seen.content.size := by
  cases shown with
  | opened within => exact ⟨rfl, by rintro _ ⟨⟩; exact within⟩
  | closed content place => exact ⟨rfl, nofun⟩

/-- A buffer stream answers every call as its image does. -/
theorem serve_simulates (writable : Bool) :
    Server.Simulates ByteStream.serve (fun _ _ => True) (StreamImage.serve (access writable))
      (HasImage writable) := by
  intro call stream image shown _
  cases shown with
  | closed content place => cases call <;> exact ⟨rfl, .closed content place⟩
  | @opened content place within =>
      have isOpen : (⟨content, place, true, writable⟩ : BufferStream).isOpen = true := rfl
      cases call with
      | size => exact ⟨rfl, .opened within⟩
      | offset => exact ⟨rfl, .opened within⟩
      | close => exact ⟨rfl, .closed content place⟩
      | seek target =>
          exact serves_of_guard (seek_of_open isOpen target) (.opened within)
            fun inside => .opened (Nat.le_of_not_lt inside)
      | read length =>
          exact serves_of_guard (read_of_open isOpen length) (.opened within)
            fun inside => .opened (Nat.le_of_not_lt inside)
      | write bytes =>
          have run := write_of_open isOpen bytes
          cases writable with
          | true =>
              rw [ByteStream.serve, report_of_ok run]
              exact ⟨rfl, .opened (Bytes.stop_le_size_overwrite within bytes)⟩
          | false =>
              rw [ByteStream.serve, report_of_error run]
              exact ⟨rfl, .opened within⟩

end BufferStream

/-! ## Files -/

namespace DiskStream

/-- A file gives and takes bytes if it was opened for this; no bytes can always be had. -/
def access (read write : Bool) : StreamAccess where
  refusesRead length := if read = true ∨ length = 0 then none else some .osError
  refusesWrite length := if write = true ∨ length = 0 then none else some .osError

/-- What a file stream looks like. -/
def image (stream : DiskStream) : StreamImage :=
  ⟨stream.content, stream.handle.map FileHandle.place⟩

/-- A file stream that is closed, or stands within its file. -/
inductive HasImage (read write : Bool) : DiskStream → StreamImage → Prop
  | opened {content : Bytes} {place : Nat} (within : place ≤ content.size) :
      HasImage read write ⟨content, some ⟨place, read, write⟩⟩ ⟨content, some place⟩
  | closed (content : Bytes) : HasImage read write ⟨content, none⟩ ⟨content, none⟩

theorem HasImage.depicts {read write : Bool} {stream : DiskStream} {seen : StreamImage}
    (shown : HasImage read write stream seen) :
    image stream = seen ∧ ∀ place ∈ seen.place?, place ≤ seen.content.size := by
  cases shown with
  | opened within => exact ⟨rfl, by rintro _ ⟨⟩; exact within⟩
  | closed content => exact ⟨rfl, nofun⟩

theorem open?_eq {file : Option Bytes} {read write : Bool} {stream : DiskStream}
    (opened : open? file read write = .ok stream) :
    ∃ content, stream = ⟨content, some ⟨0, read, write⟩⟩ := by
  simp only [open?] at opened
  split at opened
  · split at opened
    · cases opened
      exact ⟨_, rfl⟩
    · split at opened
      · cases opened
        exact ⟨_, rfl⟩
      · cases opened
  · cases opened

/-- A file stream answers every call as its image does. -/
theorem serve_simulates (read write : Bool) :
    Server.Simulates ByteStream.serve (fun _ _ => True) (StreamImage.serve (access read write))
      (HasImage read write) := by
  intro call stream image shown _
  cases shown with
  | closed content => cases call <;> exact ⟨rfl, .closed content⟩
  | @opened content place within =>
      have isOpen : (⟨content, some ⟨place, read, write⟩⟩ : DiskStream).handle =
        some ⟨place, read, write⟩ := rfl
      cases call with
      | size => exact ⟨rfl, .opened within⟩
      | offset => exact ⟨rfl, .opened within⟩
      | close => exact ⟨rfl, .closed content⟩
      | seek target =>
          exact serves_of_guard (seek_of_some isOpen target) (.opened within)
            fun inside => .opened (Nat.le_of_not_lt inside)
      | read length =>
          simp only [StreamImage.serve, StreamImage.serveAt, access]
          by_cases readable : read = true ∨ length = 0
          · rw [if_pos readable]
            exact serves_of_guard (read_of_some isOpen within readable) (.opened within)
              fun inside => .opened (Nat.le_of_not_lt inside)
          · rw [if_neg readable, ByteStream.serve,
              report_of_error (read_of_unreadable isOpen readable)]
            exact ⟨rfl, .opened within⟩
      | write bytes =>
          have run := write_of_some isOpen bytes
          simp only [StreamImage.serve, StreamImage.serveAt, access]
          by_cases writable : write = true ∨ bytes.size = 0
          · rw [if_neg (not_not_intro writable)] at run
            rw [if_pos writable, ByteStream.serve, report_of_ok run]
            exact ⟨rfl, .opened (Bytes.stop_le_size_overwrite within bytes)⟩
          · rw [if_pos writable] at run
            rw [if_neg writable, ByteStream.serve, report_of_error run]
            exact ⟨rfl, .opened within⟩

end DiskStream

/-! ## What callers can rely on -/

namespace ByteStream

variable {σ : Type} [ByteStream σ]

/-- How a stream keeps itself from a start on, whatever it is called for. -/
structure Orderly (image : σ → StreamImage) (start : σ) : Prop where
  /-- Until it is closed a stream tells its size and its place, which is within, and it can be
  closed. -/
  within_of_open : ∀ calls, .close ∉ calls → ∃ place size,
    (serve .offset (serve.left calls start)).1 = .number place ∧
      (serve .size (serve.left calls start)).1 = .number size ∧
      (image (serve.left calls start)).place? = some place ∧
      (image (serve.left calls start)).content.size = size ∧ place ≤ size ∧
      (serve .close (serve.left calls start)).1 = .done
  /-- A call that fails leaves the bytes and the place. -/
  kept_of_failed : ∀ calls call kind, (serve call (serve.left calls start)).1 = .failed kind →
    image (serve call (serve.left calls start)).2 = image (serve.left calls start)
  /-- Once a stream is closed nothing can be done with it. -/
  failed_of_closed : ∀ calls call, .close ∈ calls →
    (serve call (serve.left calls start)).1 = .failed .streamClosed

/-- Streams that answer as their images do keep themselves as images do. -/
theorem orderly_of_simulates {access : StreamAccess} {shown : σ → StreamImage → Prop}
    {image : σ → StreamImage}
    (simulates : Server.Simulates serve (fun _ _ => True) (StreamImage.serve access) shown)
    (depicts : ∀ {stream seen}, shown stream seen →
      image stream = seen ∧ ∀ place ∈ seen.place?, place ≤ seen.content.size)
    {start : σ} {first : StreamImage} (begins : shown start first)
    (isOpen : first.place?.isSome = true) : Orderly image start := by
  have reached (calls : List StreamCall) :
      shown (serve.left calls start) ((StreamImage.serve access).left calls first) :=
    (simulates.dialogue_of_forall calls begins fun _ _ _ => trivial).2
  have answered (calls : List StreamCall) (call : StreamCall) :
      (serve call (serve.left calls start)).1 =
          (StreamImage.serve access call ((StreamImage.serve access).left calls first)).1 ∧
        shown (serve call (serve.left calls start)).2
          (StreamImage.serve access call ((StreamImage.serve access).left calls first)).2 :=
    simulates (reached calls) trivial
  exact {
    within_of_open := by
      intro calls others
      obtain ⟨place, stands⟩ :
          ∃ place, ((StreamImage.serve access).left calls first).place? = some place :=
        Option.isSome_iff_exists.mp (StreamImage.isSome_left isOpen others)
      obtain ⟨seen, within⟩ := depicts (reached calls)
      refine ⟨place, _, ?_, ?_, ?_, rfl, ?_, ?_⟩
      · rw [(answered calls .offset).1, StreamImage.serve_of_open stands]
        rfl
      · rw [(answered calls .size).1, StreamImage.serve_of_open stands, seen]
        rfl
      · rw [seen, stands]
      · rw [seen]
        exact within place stands
      · rw [(answered calls .close).1, StreamImage.serve_of_open stands]
        rfl
    kept_of_failed := by
      intro calls call kind failed
      obtain ⟨same, after⟩ := answered calls call
      rw [StreamImage.serve_of_failed (same.symm.trans failed)] at after
      rw [(depicts after).1, (depicts (reached calls)).1]
    failed_of_closed := by
      intro calls call closes
      rw [(answered calls call).1,
        StreamImage.serve_of_closed (StreamImage.left_of_close_mem closes)] }

end ByteStream

open ByteStream (Orderly orderly_of_simulates)

theorem BufferStream.orderly {writable : Bool} (content : Bytes) :
    Orderly image ⟨content, 0, true, writable⟩ :=
  orderly_of_simulates (serve_simulates writable) HasImage.depicts
    (.opened (Nat.zero_le content.size)) rfl

theorem DiskStream.orderly {read write : Bool} (content : Bytes) :
    Orderly image ⟨content, some ⟨0, read, write⟩⟩ :=
  orderly_of_simulates (serve_simulates read write) HasImage.depicts
    (.opened (Nat.zero_le content.size)) rfl

/-- Two streams cannot be told apart by calls, and hold the same bytes after them. -/
def Interchangeable (calls : List StreamCall) (disk : DiskStream) (buffer : BufferStream) : Prop :=
  ByteStream.serve.answers calls disk = ByteStream.serve.answers calls buffer ∧
    (ByteStream.serve.left calls disk).content = (ByteStream.serve.left calls buffer).content

/-- Where a file and a buffer refuse the same calls, nobody can tell the one from the other. -/
theorem interchangeable_of_serve_eq {content : Bytes} {read write writable : Bool}
    {calls : List StreamCall}
    (same : ∀ call ∈ calls, ∀ image, StreamImage.serve (DiskStream.access read write) call image =
      StreamImage.serve (BufferStream.access writable) call image) :
    Interchangeable calls ⟨content, some ⟨0, read, write⟩⟩ ⟨content, 0, true, writable⟩ := by
  -- From the file to its image, from there to the image of the buffer, and on to the buffer.
  have images : Server.Simulates (StreamImage.serve (DiskStream.access read write))
      (fun call image => StreamImage.serve (DiskStream.access read write) call image =
        StreamImage.serve (BufferStream.access writable) call image)
      (StreamImage.serve (BufferStream.access writable)) Eq := by
    rintro call image _ rfl agree
    rw [agree]
    exact ⟨rfl, rfl⟩
  have start := Nat.zero_le content.size
  obtain ⟨fileAnswers, fileShown⟩ :=
    (DiskStream.serve_simulates read write).dialogue_of_forall calls (.opened start)
      fun _ _ _ => trivial
  obtain ⟨bufferAnswers, bufferShown⟩ :=
    (BufferStream.serve_simulates writable).dialogue_of_forall calls (.opened start)
      fun _ _ _ => trivial
  obtain ⟨answers, last⟩ := images.dialogue_of_forall calls rfl same
  rw [last] at fileShown
  have seen := fileShown.depicts.1.trans bufferShown.depicts.1.symm
  exact ⟨fileAnswers.trans (answers.trans bufferAnswers.symm), congrArg StreamImage.content seen⟩

/-- A file and a buffer with the same bytes are alike, if both are read and written, and also if
both are only read; however a stream was opened, it keeps itself in order. -/
theorem disk_alike_buffer (content : Bytes) :
    (∃ disk, DiskStream.open? (some content) true true = .ok disk ∧
      ∀ calls, Interchangeable calls disk (BufferStream.writing content)) ∧
    (∃ disk, DiskStream.open? (some content) true false = .ok disk ∧
      ∀ calls, (∀ bytes, .write bytes ∉ calls) →
        Interchangeable calls disk (BufferStream.reading content)) ∧
    (∀ file read write disk, DiskStream.open? file read write = .ok disk →
      Orderly DiskStream.image disk) ∧
    Orderly BufferStream.image (BufferStream.writing content) ∧
    Orderly BufferStream.image (BufferStream.reading content) := by
  refine ⟨⟨_, rfl, fun calls => ?_⟩, ⟨_, rfl, fun calls noWrite => ?_⟩, ?_,
    BufferStream.orderly content, BufferStream.orderly content⟩
  · exact interchangeable_of_serve_eq fun call _ image => StreamImage.serve_congr rfl fun _ _ => rfl
  · apply interchangeable_of_serve_eq
    intro call member image
    refine StreamImage.serve_congr rfl fun bytes isWrite => ?_
    subst isWrite
    exact absurd member (noWrite bytes)
  · intro file read write disk opened
    obtain ⟨bytes, rfl⟩ := DiskStream.open?_eq opened
    exact DiskStream.orderly bytes

/-- A read that comes too short leaves the place, and a write there makes the buffer longer. -/
example : ByteStream.serve.answers [.seek 2, .read 3, .offset, .write #[7, 8], .size, .close, .size]
    (BufferStream.writing #[1, 2, 3]) =
      [.done, .failed .shortRead, .number 2, .done, .number 4, .done, .failed .streamClosed] := by
  decide

end DeflateAtlas
