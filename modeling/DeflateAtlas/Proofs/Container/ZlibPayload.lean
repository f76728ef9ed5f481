import DeflateAtlas.Container.Zlib
import DeflateAtlas.Proofs.Bytes
import DeflateAtlas.Proofs.Locate.Repeating

/-!
# Where the deflate data of a zlib stream lies

The header of a zlib stream says where the deflate data behind it begins; the data
ends before the four bytes of the checksum.  Reading headers can be repeated.
-/

namespace DeflateAtlas

open Survey

variable {τ υ σ : Type} [ByteStream σ] [LawfulStream σ] {content : Bytes} {readable : Bool}

namespace Zlib

/-- What the two bytes at a place are as the beginning of a zlib stream. -/
def headerAt (content : Bytes) (place : Nat) : Except Failure Header :=
  Header.parse (content.getD place 0) (content.getD (place + 1) 0)

/-- The deflate data of a zlib stream begins behind its header and ends before its checksum. -/
structure Payload (content : Bytes) (zlib deflate : ByteExtent) (header : Header) : Prop where
  within : zlib.endsWithin content.size
  header_eq : headerAt content zlib.offset = .ok header
  offset_eq : deflate.offset = zlib.offset + header.size
  stop_eq : deflate.stop + trailerSize = zlib.stop

variable [PredictableStream σ]

theorem repeats_readHeader {place : Nat} (inside : place ≤ content.size) :
    Repeats (Alike content readable) (Alike content readable)
      (readHeader place : Survey τ σ Header) (readHeader place : Survey υ σ Header) := by
  refine Follows.bind (repeats_readAt inside 2) fun bytes => ?_
  cases Header.parse (bytes.getD 0 0) (bytes.getD 1 0) with
  | error failure => exact (repeats_note _).bind fun _ => repeats_throw failure
  | ok header =>
      refine Follows.ite ?_ ?_
      · refine Follows.bind (repeats_onStream (follows_read 4)) fun _ => ?_
        exact (Follows.pure header).weaken fun _ _ => AlikeAt.alike
      · exact (Follows.pure header).weaken fun _ _ => AlikeAt.alike

theorem repeats_payload (zlib : ByteExtent) :
    Repeats (Alike content readable) (Alike content readable)
      (payload zlib : Survey τ σ ByteExtent) (payload zlib : Survey υ σ ByteExtent) := by
  refine repeats_size (repeats_within fun inside => ?_)
  refine Follows.bind (repeats_readHeader inside) fun header => ?_
  exact Follows.ite (repeats_fail _) (Follows.pure _)

variable {bench after : Workbench τ σ}

theorem readHeader_eq_ok {place : Nat} {header : Header}
    (shows : Shows bench.stream content readable) (inside : place ≤ content.size)
    (ended : readHeader place bench = .ok header after) : headerAt content place = .ok header := by
  obtain ⟨bytes, middle, read, ended⟩ := bind_eq_ok_iff.mp ended
  have room := inside_of_readAt shows inside read
  obtain ⟨-, rfl, -⟩ := readAt_eq_ok shows room read
  rw [Bytes.getD_slice room Nat.two_pos, Bytes.getD_slice room Nat.one_lt_two] at ended
  rw [Nat.add_zero, ← headerAt] at ended
  cases parsed : headerAt content place with
  | error failure =>
      rw [parsed] at ended
      obtain ⟨⟨⟩, noted, -, ended⟩ := bind_eq_ok_iff.mp ended
      cases ended
  | ok given =>
      rw [parsed] at ended
      dsimp only at ended
      split at ended
      · obtain ⟨dictionary, passed, -, ended⟩ := bind_eq_ok_iff.mp ended
        cases ended
        rfl
      · cases ended
        rfl

theorem payload_eq_ok {zlib deflate : ByteExtent} (shows : Shows bench.stream content readable)
    (ended : payload zlib bench = .ok deflate after) :
    ∃ header, Payload content zlib deflate header := by
  obtain ⟨size, opened, sized, ended⟩ := bind_eq_ok_iff.mp ended
  rw [size_of_shows shows] at sized
  cases sized
  by_cases within : zlib.endsWithin content.size
  · rw [if_neg (not_not_intro within)] at ended
    have stop := (Extent.endsWithin_iff.mp within).2
    have inside := Nat.le_trans (Nat.le_add_right _ _) stop
    obtain ⟨header, middle, read, ended⟩ := bind_eq_ok_iff.mp ended
    by_cases short : zlib.length < header.size + trailerSize
    · rw [if_pos short] at ended
      exact absurd ended (fail_ne_ok _)
    · rw [if_neg short] at ended
      cases ended
      refine ⟨header, within, readHeader_eq_ok shows inside read, rfl, ?_⟩
      simp only [Extent.stop]
      omega
  · rw [if_pos within] at ended
    exact absurd ended (fail_ne_ok _)

end Zlib

end DeflateAtlas
