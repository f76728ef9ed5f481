import DeflateAtlas.Container.Gzip
import DeflateAtlas.Container.Zip

/-!
# What containers locate

A container does not say where its deflate streams end, so each extent that is
located has been measured: a probe has found a stream at its first byte that is as
long as the extent.  This holds for any probe.
-/

namespace DeflateAtlas

/-- A probe has found a stream that fills an extent. -/
def Measured (probe : Probe) (data : Bytes) (extent : ByteExtent) : Prop :=
  ∃ sizes, probe data extent.offset = .ok sizes ∧ sizes.compressed = extent.length

variable {probe : Probe} {data : Bytes}

namespace Zip

theorem Candidate.measured_of_judge {place : Nat} {extent : ByteExtent}
    (found : (judge probe data place).deflate? = some extent) : Measured probe data extent := by
  unfold judge at found
  dsimp only at found
  split at found
  · cases found
  · split at found
    · cases found
    · split at found
      · cases found
      · rename_i sizes run
        cases found
        exact ⟨sizes, run, rfl⟩

theorem exists_judge_of_candidates {place : Nat} {candidate : Candidate}
    (inside : candidate ∈ candidates probe data place) :
    ∃ place, candidate = Candidate.judge probe data place := by
  fun_induction candidates probe data place with
  | case1 place room signed judged ih =>
      rcases List.mem_cons.mp inside with rfl | later
      · exact ⟨place, rfl⟩
      · exact ih later
  | case2 place room unsigned ih => exact ih inside
  | case3 => cases inside

theorem measured_of_deflates {extent : ByteExtent} (located : extent ∈ deflates probe data) :
    Measured probe data extent := by
  obtain ⟨candidate, inside, found⟩ := List.mem_filterMap.mp located
  obtain ⟨place, rfl⟩ := exists_judge_of_candidates inside
  exact Candidate.measured_of_judge found

end Zip

namespace Gzip

theorem Member.read_of_ok {place start : Nat} {sizes : Measurement}
    (header : headerStop data place = .ok start) (run : probe data start = .ok sizes)
    (room : start + sizes.compressed + trailerSize ≤ data.size) :
    read probe data place = .ok
      { start, sizes
        crc32 := (data.field (start + sizes.compressed) 4).toUInt32
        contentSize := data.field (start + sizes.compressed + 4) 4 } := by
  simp only [read, header, run, bind, Except.bind, if_neg (Nat.not_lt.mpr room)]

theorem Member.read_of_no_header {place : Nat} {failure : Failure}
    (refused : headerStop data place = .error failure) :
    read probe data place = .error failure := by
  simp only [read, refused, bind, Except.bind]

theorem Member.read_of_no_stream {place start : Nat} {failure : Failure}
    (header : headerStop data place = .ok start) (refused : probe data start = .error failure) :
    read probe data place = .error failure := by
  simp only [read, header, refused, bind, Except.bind]

theorem Member.read_of_no_trailer {place start : Nat} {sizes : Measurement}
    (header : headerStop data place = .ok start) (run : probe data start = .ok sizes)
    (short : data.size < start + sizes.compressed + trailerSize) :
    read probe data place = .error .gzipTrailerEnded := by
  simp only [read, header, run, bind, Except.bind, if_pos short]

theorem deflates_of_read {first : Member} (found : Member.read probe data 0 = .ok first) :
    deflates probe data =
      .ok (first.payload :: (Walk.onward probe data first.stop).members.map Member.payload) := by
  simp only [deflates, Walk.ofFile, found, bind, Except.bind]
  rfl

theorem deflates_of_error {failure : Failure}
    (refused : Member.read probe data 0 = .error failure) :
    deflates probe data = .error failure := by
  simp only [deflates, Walk.ofFile, refused, bind, Except.bind]
  rfl

/-- What a member that has been read says of the data. -/
theorem Member.of_read {place : Nat} {member : Member}
    (found : read probe data place = .ok member) :
    headerStop data place = .ok member.start ∧ probe data member.start = .ok member.sizes ∧
      member.stop ≤ data.size := by
  simp only [read, bind, Except.bind] at found
  split at found
  · cases found
  · rename_i start header
    split at found
    · cases found
    · rename_i sizes run
      split at found
      · cases found
      · rename_i room
        cases found
        exact ⟨header, run, Nat.le_of_not_lt room⟩

theorem Member.measured_of_read {place : Nat} {member : Member}
    (found : read probe data place = .ok member) : Measured probe data member.payload :=
  ⟨member.sizes, (of_read found).2.1, rfl⟩

theorem Walk.measured_of_onward {place : Nat} {member : Member}
    (inside : member ∈ (onward probe data place).members) :
    Measured probe data member.payload := by
  fun_induction onward probe data place with
  | case1 => cases inside
  | case2 place room first found rest ih =>
      rcases List.mem_cons.mp inside with rfl | later
      · exact Member.measured_of_read found
      · exact ih later
  | case3 => cases inside

theorem Walk.measured_of_ofFile {walk : Walk} (found : ofFile probe data = .ok walk)
    {member : Member} (inside : member ∈ walk.members) : Measured probe data member.payload := by
  simp only [ofFile, bind, Except.bind] at found
  split at found
  · cases found
  · rename_i first run
    cases found
    rcases List.mem_cons.mp inside with rfl | later
    · exact Member.measured_of_read run
    · exact measured_of_onward later

theorem measured_of_deflates {extents : List ByteExtent}
    (found : deflates probe data = .ok extents) {extent : ByteExtent} (located : extent ∈ extents) :
    Measured probe data extent := by
  rw [deflates] at found
  cases run : Walk.ofFile probe data with
  | error failure =>
      rw [run] at found
      cases found
  | ok walk =>
      rw [run] at found
      cases found
      obtain ⟨member, inside, rfl⟩ := List.mem_map.mp located
      exact Walk.measured_of_ofFile run inside

end Gzip

end DeflateAtlas
