import Mathlib.Data.List.GetD
import PCom.PubSub.Frames

/-! # Packets that show how a stream was divided

Probes are packets whose bytes tell their place: `a` in the topic and nowhere else, a payload
of `b`, and only zeros, digits and other characters in front.
-/

namespace PCom.PubSub
open Foundations

theorem decimal_size_lt (l : Fin maxLen) : (decimal (90 + l)).length < 10 := by
  have hl : l.val < 1501 := l.isLt
  have := decimal_length_le (n := 90 + l.val) (k := 4) (by omega) (by omega)
  omega

/-- A string message with a topic of 50 characters and a payload of `l`. -/
def probe (l : Fin maxLen) : TcpPacket where
  size := ⟨decimal (90 + l), decimal_nul_free _, decimal_size_lt l⟩
  ip := oneIp
  port := 0
  type := stringType
  topic := ⟨List.replicate 50 97, by decide, by decide⟩
  payload := ⟨List.replicate l 98, by simp [List.mem_replicate], by simp⟩

theorem probe_sized (l : Fin maxLen) : Sized (probe l) l := ⟨rfl, List.length_replicate⟩

theorem probe_fromUdp (l : Fin maxLen) : FromUdp (probe l) := by
  refine ⟨fun _ _ _ => [], ⟨List.replicate 50 97, 3, List.replicate l 98⟩, ⟨(1, 1, 1, 1), (0, 0)⟩, ?_⟩
  have hpayload : (0 : UInt8) ∉ List.replicate l.val 98 := (probe l).payload.nul_free
  have htext : udpText (fun _ _ _ => []) ⟨List.replicate 50 97, 3, List.replicate l 98⟩ =
      some (ascii "STRING", List.replicate l 98) := by
    simp [udpText, cstr_of_nul_free hpayload]
  have hip : CString.strcpy 16 (SockAddr.inetNtoa ⟨(1, 1, 1, 1), (0, 0)⟩) = some (probe l).ip :=
    CString.strcpy_eq_some.mpr (show ascii "1.1.1.1" = _ by decide)
  have htopic : CString.strcpy 51 (List.replicate 50 97) = some (probe l).topic :=
    CString.strcpy_eq_some.mpr (show List.replicate 50 97 = cstr (List.replicate 50 97) by decide)
  have htype : CString.strcpy 11 (ascii "STRING") = some (probe l).type :=
    CString.strcpy_eq_some.mpr (show ascii "STRING" = _ by decide)
  have hbody : CString.strcpy maxLen (List.replicate l 98) = some (probe l).payload :=
    CString.strcpy_eq_some.mpr (cstr_of_nul_free hpayload).symm
  have hsize : CString.strcpy 10 (decimal (sizeofTcpPacket - maxLen + (probe l).payload.chars.length)) =
      some (probe l).size := by
    apply CString.strcpy_eq_some.mpr
    rw [cstr_of_nul_free (decimal_nul_free _)]
    simp [probe, sizeofTcpPacket]
  rw [udpToTcp, htext]
  simp only [Option.bind_eq_bind, Option.bind_some, hip, htopic, htype, hbody, hsize]
  rfl

def intro (l : Fin maxLen) : Bytes :=
  (probe l).size.bytes ++ ((probe l).size.bytes ++ ((probe l).ip.bytes ++ (0 :: 0 :: (probe l).type.bytes)))

theorem intro_length (l : Fin maxLen) : (intro l).length = 49 := by
  simp only [intro, List.length_append, List.length_cons, CString.bytes_length]

theorem probe_frame (l : Fin maxLen) :
    (probe l).frame = intro l ++ (List.replicate 50 97 ++ 0 :: List.replicate l 98) := by
  have hport : UInt8.ofNat (probe l).port.toNat = 0 ∧ UInt8.ofNat ((probe l).port.toNat / 256) = 0 :=
    show UInt8.ofNat (0 : UInt16).toNat = 0 ∧ UInt8.ofNat ((0 : UInt16).toNat / 256) = 0 by decide
  have htopic : (probe l).topic.bytes = List.replicate 50 97 ++ [0] := rfl
  have hpayload : (probe l).payload.bytes = List.replicate l 98 ++ List.replicate (maxLen - l) 0 := by
    simp [CString.bytes, probe]
  have hbytes : (probe l).bytes = ((probe l).size.bytes ++ ((probe l).ip.bytes ++ (0 :: 0 ::
      ((probe l).type.bytes ++ (List.replicate 50 97 ++ 0 :: List.replicate l 98))))) ++
        List.replicate (maxLen - l) 0 := by
    simp [TcpPacket.bytes, hport, htopic, hpayload]
  have hlen : ((probe l).size.bytes ++ ((probe l).ip.bytes ++ (0 :: 0 :: ((probe l).type.bytes ++
      (List.replicate 50 97 ++ 0 :: List.replicate l 98))))).length = 90 + l.val := by
    simp only [List.length_append, List.length_cons, CString.bytes_length, List.length_replicate]
    omega
  rw [(probe_sized l).frame_eq, hbytes, List.take_left' hlen, intro]
  simp

theorem getD_ne {x : UInt8} {A : Bytes} (hx : x ∉ A) (h0 : x ≠ 0) (i : ℕ) : A.getD i 0 ≠ x := by
  rw [List.getD_eq_getElem?_getD]
  cases hi : A[i]? with
  | none => exact h0.symm
  | some y => exact fun hy => hx (by rw [← show y = x from hy]; exact List.mem_of_getElem? hi)

theorem a_not_mem_intro (l : Fin maxLen) : (97 : UInt8) ∉ intro l := by
  have hsize : (97 : UInt8) ∉ (probe l).size.bytes := by
    rw [CString.bytes, List.mem_append]
    rintro (h | h)
    · exact absurd (isDigit_of_mem_decimal h) (by decide)
    · exact absurd (List.eq_of_mem_replicate h) (by decide)
  have hip : (97 : UInt8) ∉ (probe l).ip.bytes :=
    show (97 : UInt8) ∉ ascii "1.1.1.1" ++ List.replicate 9 0 by decide
  have htype : (97 : UInt8) ∉ 0 :: 0 :: (probe l).type.bytes :=
    show (97 : UInt8) ∉ 0 :: 0 :: (ascii "STRING" ++ List.replicate 5 0) by decide
  simp only [intro, List.mem_append, not_or]
  exact ⟨hsize, hsize, hip, htype⟩

/-- Up to the topic of the second frame, an `a` lies in the topic of the first. -/
theorem place_of_a {l : Fin maxLen} {ls : List (Fin maxLen)} {i : ℕ}
    (ha : (sentStream ((l :: ls).map probe)).getD i 0 = 97) (hi : i < 149 + l) : 49 ≤ i ∧ i < 99 := by
  rw [List.map_cons, sentStream_cons, probe_frame, List.append_assoc, List.append_assoc] at ha
  have hintro := intro_length l
  by_cases hlow : i < 49
  · rw [List.getD_append _ _ _ _ (by omega)] at ha
    exact absurd ha (getD_ne (a_not_mem_intro l) (by decide) i)
  refine ⟨by omega, ?_⟩
  by_contra hhigh
  rw [List.getD_append_right _ _ _ _ (by omega), hintro,
    List.getD_append_right _ _ _ _ (by rw [List.length_replicate]; omega), List.length_replicate] at ha
  have htail : (97 : UInt8) ∉ (0 :: List.replicate l 98 : Bytes) := by
    simp [List.mem_replicate]
  have hlen : (0 :: List.replicate l 98 : Bytes).length = 1 + l := by simp; omega
  by_cases hmid : i - 49 - 50 < 1 + l
  · rw [List.getD_append _ _ _ _ (by omega)] at ha
    exact absurd ha (getD_ne htail (by decide) _)
  rw [List.getD_append_right _ _ _ _ (by omega), hlen] at ha
  cases ls with
  | nil => simp at ha
  | cons l' ls =>
    rw [List.map_cons, sentStream_cons, probe_frame, List.append_assoc,
      List.getD_append _ _ _ _ (by rw [intro_length]; omega)] at ha
    exact absurd ha (getD_ne (a_not_mem_intro l') (by decide) _)

theorem getD_cstr {mem : Bytes} {i : ℕ} (hi : i < (cstr mem).length) :
    mem.getD i 0 = (cstr mem).getD i 0 := by
  obtain ⟨rest, hrest⟩ := List.takeWhile_prefix (fun c : UInt8 => c ≠ 0) (l := mem)
  have happ : cstr mem ++ rest = mem := hrest
  calc mem.getD i 0 = (cstr mem ++ rest).getD i 0 := by rw [happ]
    _ = (cstr mem).getD i 0 := List.getD_append _ _ _ _ hi

theorem buff_of_printed {l : Fin maxLen} {buff : Bytes} (h : printed buff = (probe l).line) :
    (∀ i < 50, buff.getD (39 + i) 0 = 97) ∧ buff.getD 10 0 = 49 ∧
      (if l.val = 0 then 89 else 90 + l.val) ≤ buff.length := by
  have htopic : cstr (buff.drop 39) = List.replicate 50 97 := congrArg Line.topic h
  have hip : cstr (buff.drop 10) = ascii "1.1.1.1" := congrArg Line.ip h
  have hpayload : cstr (buff.drop 90) = List.replicate l 98 := congrArg Line.payload h
  refine ⟨fun i hi => ?_, ?_, ?_⟩
  · have hget : (buff.drop 39).getD i 0 = _ := getD_cstr (by rw [htopic]; simpa using hi)
    rw [htopic, List.getD_replicate _ hi] at hget
    simpa [List.getD_eq_getElem?_getD] using hget
  · have hget : (buff.drop 10).getD 0 0 = _ := getD_cstr (by rw [hip]; decide)
    rw [hip] at hget
    have hdrop : (buff.drop 10).getD 0 0 = buff.getD 10 0 := by simp [List.getD_eq_getElem?_getD]
    exact hdrop.symm.trans (hget.trans (by decide))
  · have h₁ := cstr_length_le (buff.drop 39)
    have h₂ := cstr_length_le (buff.drop 90)
    rw [htopic, List.length_replicate, List.length_drop] at h₁
    rw [hpayload, List.length_replicate, List.length_drop] at h₂
    split <;> omega

end PCom.PubSub
