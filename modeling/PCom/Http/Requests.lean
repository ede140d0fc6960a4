import PCom.Foundations.Crlf
import PCom.Http.Receive

/-! # The POST request of the HTTP laboratory

`compute_post_request` of `requests.c`. The size of the body is counted in the loop that puts the fields
together.
-/

namespace PCom.Http
open Foundations

def lineLen : ℕ := 1000

def computeMessage (message line : Bytes) : Bytes := message ++ line ++ [13, 10]

/-- The arguments of `compute_post_request`; `none` stands for NULL. -/
structure PostArguments where
  host : Bytes
  url : Bytes
  contentType : Bytes
  bodyData : Option (List Bytes)
  cookies : Option (List Bytes)
deriving DecidableEq

/-- `size` and `body_data_buffer` after the loop over all fields but the last one. -/
def bodyLoop (fields : List Bytes) : ℕ × Bytes :=
  fields.foldl (fun s field => (s.1 + (field.length + 1), s.2 ++ field ++ ascii "&")) (0, [])

/-- `size` and `body_data_buffer`; `none` where the last of no fields is read. -/
def computeBody : Option (List Bytes) → Option (ℕ × Bytes)
  | none => some (0, [])
  | some fields => do
    let s := bodyLoop fields.dropLast
    let last ← fields.getLast?
    return (s.1 + last.length, s.2 ++ last)

def PostArguments.formatted (arguments : PostArguments) (size : ℕ) : List Bytes :=
  [ascii "POST " ++ arguments.url ++ ascii " HTTP/1.1", ascii "Host: " ++ arguments.host,
    ascii "Content-Type: " ++ arguments.contentType, ascii "Content-Length: " ++ decimal size] ++
    (arguments.cookies.getD []).map fun cookie => ascii "Cookie: " ++ cookie

/-- `compute_post_request`; `none` also where a text does not fit its buffer. -/
def computePostRequest (arguments : PostArguments) : Option Bytes := do
  let (size, bodyDataBuffer) ← computeBody arguments.bodyData
  let message := (arguments.formatted size ++ [[], bodyDataBuffer]).foldl computeMessage []
  if (∀ line ∈ arguments.formatted size, line.length < lineLen) ∧ bodyDataBuffer.length < lineLen ∧
      message.length < bufLen then some message
  else none

def PostArguments.body (arguments : PostArguments) : Bytes :=
  (ascii "&").intercalate (arguments.bodyData.getD [])

variable {arguments : PostArguments} {fields : List Bytes} {size : ℕ} {buffer message : Bytes}

theorem bodyLoop_concat (fields : List Bytes) (field : Bytes) : bodyLoop (fields ++ [field]) =
    ((bodyLoop fields).1 + (field.length + 1), (bodyLoop fields).2 ++ field ++ ascii "&") := by
  rw [bodyLoop, List.foldl_concat, ← bodyLoop]

theorem bodyLoop_size (fields : List Bytes) : (bodyLoop fields).1 = (bodyLoop fields).2.length := by
  induction fields using List.reverseRecOn with
  | nil => rfl
  | append_singleton fields field ih =>
    have hone : (ascii "&").length = 1 := by decide
    rw [bodyLoop_concat]
    simp only [List.length_append, hone, ih]
    omega

theorem bodyLoop_buffer (fields : List Bytes) : (bodyLoop fields).2 = fields.flatMap (· ++ ascii "&") := by
  induction fields using List.reverseRecOn with
  | nil => rfl
  | append_singleton fields field ih =>
    rw [bodyLoop_concat, ih]
    simp

theorem bodyLoop_append (fields : List Bytes) (last : Bytes) :
    (bodyLoop fields).2 ++ last = (ascii "&").intercalate (fields ++ [last]) := by
  rw [bodyLoop_buffer]
  induction fields with
  | nil => simp
  | cons field fields ih =>
    rw [List.cons_append, List.intercalate_cons_of_ne_nil (by simp), ← ih]
    simp

/-- The size that is stated is the length of the body that is appended. -/
theorem computeBody_eq (h : computeBody arguments.bodyData = some (size, buffer)) :
    size = arguments.body.length ∧ buffer = arguments.body := by
  rw [PostArguments.body]
  cases hdata : arguments.bodyData with
  | none =>
    rw [hdata] at h
    cases h
    exact ⟨rfl, rfl⟩
  | some fields =>
    rw [hdata, computeBody] at h
    simp only [Option.bind_eq_bind, Option.bind_eq_some_iff, Option.pure_def, Option.some.injEq, Prod.mk.injEq] at h
    obtain ⟨last, hlast, rfl, rfl⟩ := h
    have hfields : fields.dropLast ++ [last] = fields := List.dropLast_append_getLast? last hlast
    have hbody := bodyLoop_append fields.dropLast last
    rw [hfields] at hbody
    refine ⟨?_, hbody⟩
    rw [Option.getD_some, ← hbody, List.length_append, bodyLoop_size]

/-- The message is the head, an empty line, and the body with the end of a line. -/
theorem computePostRequest_eq (h : computePostRequest arguments = some message) : message =
    joinLines (arguments.formatted arguments.body.length) ++ (crlf ++ (arguments.body ++ crlf)) := by
  simp only [computePostRequest, Option.bind_eq_bind, Option.bind_eq_some_iff] at h
  obtain ⟨⟨size, buffer⟩, hbody, h⟩ := h
  obtain ⟨rfl, rfl⟩ := computeBody_eq hbody
  split at h
  · cases h
    rw [foldl_joinLines computeMessage fun _ _ => rfl]
    simp [joinLines]
  · cases h

end PCom.Http
