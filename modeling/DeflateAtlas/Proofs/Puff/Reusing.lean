import DeflateAtlas.Proofs.Deflate.Streams
import DeflateAtlas.ReusingEncoder

/-!
# Encoders without a memory

An encoder may keep something from call to call.  It encodes if every call gives
what `PuffEncoder` gives, whatever earlier calls have left behind.
-/

namespace DeflateAtlas

open Deflate

/-- Transforms that give what the encoder gives, whatever has been done with them before. -/
class Encodes (τ : Type) [Transform τ] : Prop where
  run_eq : ∀ (transform : τ) (source : BitSource) (sink : Puff.Sink),
    (Transform.run transform source sink).1 = PuffEncoder.encode source sink

instance : Encodes PuffEncoder where
  run_eq _ _ _ := rfl

namespace ReusingEncoder

theorem parseBlocks_eq (spans : Array BlockSpan) (before : Desk) :
    (parseBlocks spans before).1 = Deflate.parseBlocks spans before.transcript := by
  fun_induction parseBlocks spans before with
  | case1 spans before few => exact (parseBlocks_of_few few).symm
  | case2 spans before many failure after step =>
      rcases (ignores_readBlock rfl).eq_error step with impossible | ⟨_, run, rfl⟩
      · exact impossible.elim
      · exact (parseBlocks_of_error run many).symm
  | case3 spans before many start after step span =>
      obtain ⟨_, run, rfl⟩ := (ignores_readBlock rfl).eq_ok step
      exact (parseBlocks_of_ok run many).symm
  | case4 spans before many start last after step span notLast ih =>
      obtain ⟨_, run, rfl⟩ := (ignores_readBlock rfl).eq_ok step
      rw [ih, parseBlocks_of_ok run many]
      dsimp only
      rw [if_neg notLast]

/-- What is in the buffer does not matter. -/
theorem encode_eq (encoder : ReusingEncoder) (source : BitSource) (sink : Puff.Sink) :
    (encode encoder source sink).1 = PuffEncoder.encode source sink := by
  have parsed := parseBlocks_eq #[] ⟨⟨source, #[]⟩, encoder.buffer⟩
  rw [PuffEncoder.encode, parse, ← parsed]
  rfl

end ReusingEncoder

instance : Encodes ReusingEncoder where
  run_eq := ReusingEncoder.encode_eq

end DeflateAtlas
