import PCom.Http.Receive

/-! # The searches in the buffer

Both searches return the first place of the pattern, or `-1`, and read nothing outside. The
insensitive one is the other one after both texts were put in lower case.
-/

namespace PCom.Http
open Foundations

def built (adds : List Bytes) : Bytes := adds.foldl bufferAdd []

theorem built_eq (adds : List Bytes) : built adds = adds.flatten := by
  have hfold : ∀ buffer, adds.foldl bufferAdd buffer = buffer ++ adds.flatten := by
    induction adds with
    | nil => simp
    | cons data adds ih =>
      intro buffer
      rw [List.foldl_cons, ih, bufferAdd, List.flatten_cons, List.append_assoc]
  rw [built, hfold, List.nil_append]

/-- What a search may answer: the first place of the pattern, or `-1`. -/
def Answers (buffer data : Bytes) (r : ℤ) : Prop :=
  (r = -1 ↔ ∀ i, ¬ Occurs (· == ·) data buffer i) ∧
    ∀ i : ℕ, r = i ↔ IsLeast {i | Occurs (· == ·) data buffer i} i

/-- A place in a buffer below two gigabytes is kept by the `int`. -/
theorem bufferFind_answers {buffer : Bytes} (h : buffer.length < 2 ^ 31) (data : Bytes) :
    ∃ r, bufferFind buffer data = some r ∧ Answers buffer data r := by
  rcases search_total (· == ·) data buffer with ⟨hs, hnone⟩ | ⟨i, hs, hleast⟩
  · refine ⟨-1, by rw [bufferFind, hs]; rfl, iff_of_true rfl hnone, fun k => ?_⟩
    exact iff_of_false (by omega) fun hk => hnone k hk.1
  · have hi := hleast.1.1
    have hint : cInt i = i := by
      rw [cInt, Int.bmod_eq_of_le (by omega) (by omega)]
    refine ⟨i, by rw [bufferFind, hs, Option.map_some, found, hint], ?_, fun k => ?_⟩
    · exact iff_of_false (by omega) fun hnone => hnone i hleast.1
    · rw [Nat.cast_inj]
      exact ⟨fun hk => hk ▸ hleast, fun hk => hleast.unique hk⟩

theorem bufferFindInsensitive_eq (buffer data : Bytes) :
    bufferFindInsensitive buffer data = bufferFind (buffer.map toLower) (data.map toLower) := by
  have hsearch : search sameLetter data buffer = search (· == ·) (data.map toLower) (buffer.map toLower) :=
    search_congr fun i => occurs_map toLower
  rw [bufferFindInsensitive, bufferFind, hsearch]

/-- In a buffer that calls of `buffer_add` built, both searches come to an end without a read
outside, and answer with the first place or `-1`. -/
theorem buffer_searches {adds : List Bytes} (h : (adds.map List.length).sum < 2 ^ 31) (data : Bytes) :
    (∃ r, bufferFind (built adds) data = some r ∧ Answers (built adds) data r) ∧
    bufferFindInsensitive (built adds) data = bufferFind ((built adds).map toLower) (data.map toLower) ∧
    ∃ r, bufferFindInsensitive (built adds) data = some r ∧
      Answers ((built adds).map toLower) (data.map toLower) r := by
  have hlen : (built adds).length < 2 ^ 31 := by rwa [built_eq, List.length_flatten]
  refine ⟨bufferFind_answers hlen data, bufferFindInsensitive_eq _ _, ?_⟩
  rw [bufferFindInsensitive_eq]
  apply bufferFind_answers
  rwa [List.length_map]

/-- A pattern that a border of two additions cuts. -/
theorem buffer_searches_border :
    ∃ r, bufferFindInsensitive (built [ascii "HTTP", ascii "/1.1 200"]) (ascii "p/1") = some r ∧
      Answers ((built [ascii "HTTP", ascii "/1.1 200"]).map toLower) ((ascii "p/1").map toLower) r :=
  (buffer_searches (by decide) _).2.2

end PCom.Http
