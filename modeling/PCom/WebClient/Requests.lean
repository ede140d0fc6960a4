import PCom.Foundations.Decimal

/-! # The requests of the web client

`utils.cpp`: the lines of a request are formatted in a buffer of `LINELEN` bytes and appended to a
message of `BUFLEN` bytes.
-/

namespace PCom.WebClient
open Foundations

def bufLen : ℕ := 4096

def lineLen : ℕ := 300

def host : Bytes := ascii "34.118.48.238"

def newline : Bytes := [13, 10]

inductive Fault where
  /-- The result of a search that found nothing is used. -/
  | nullPointer
  /-- An exception of the JSON library that nobody catches. -/
  | exception
  /-- A write outside a buffer. -/
  | overflow
deriving DecidableEq

/-- The arguments of `compute_get_request`, `compute_post_request` and `compute_delete_request`. -/
inductive Request where
  | get (url : Bytes) (cookie token : Option Bytes)
  | post (url bodyData : Bytes) (token : Option Bytes)
  | delete (url : Bytes) (token : Option Bytes)
deriving DecidableEq

def authorization (token : Option Bytes) : List Bytes :=
  token.toList.map fun token => ascii "Authorization: Bearer " ++ token

/-- The lines that are formatted in the buffer `line`, in order. -/
def Request.formatted : Request → List Bytes
  | .get url cookie token =>
    [ascii "GET " ++ url ++ ascii " HTTP/1.1", ascii "Host: " ++ host] ++
      (cookie.toList.map fun cookie => ascii "Cookie: " ++ cookie) ++ authorization token
  | .post url bodyData token =>
    [ascii "POST " ++ url ++ ascii " HTTP/1.1", ascii "Host: " ++ host,
      ascii "Content-Type: application/json", ascii "Content-Length: " ++ decimal bodyData.length] ++
      authorization token
  | .delete url token =>
    [ascii "DELETE " ++ url ++ ascii " HTTP/1.1", ascii "Host: " ++ host] ++ authorization token

/-- The lines after them; `compute_delete_request` appends the last formatted line a second time. -/
def Request.appended : Request → List Bytes
  | .get _ _ _ => [[]]
  | .post _ bodyData _ => [[], bodyData]
  | .delete url token => ((Request.delete url token).formatted.getLast?.getD []) :: [[]]

def computeMessage (message line : Bytes) : Bytes := message ++ line ++ newline

def Request.text (request : Request) : Bytes :=
  (request.formatted ++ request.appended).foldl computeMessage []

def Request.message (request : Request) : Except Fault Bytes :=
  if (∀ line ∈ request.formatted, line.length < lineLen) ∧ request.text.length < bufLen then
    .ok request.text
  else .error .overflow

def Request.token : Request → Option Bytes
  | .get _ _ token => token
  | .post _ _ token => token
  | .delete _ token => token

end PCom.WebClient
