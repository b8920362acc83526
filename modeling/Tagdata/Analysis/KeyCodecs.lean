import Tagdata.Library.Digits
import Tagdata.Library.Results
import Tagdata.Model.Codecs

/-!
# Key codecs are order embeddings

Every built-in key codec decodes what it has encoded, encodes keys so that the bytes compare as
the keys do, and accepts only bytes that it would have written itself.
-/

set_option autoImplicit false

namespace Tagdata.Analysis

open Tagdata.Library Tagdata.Model

/-- A codec that embeds an ordered type of keys into the bytes: keys are read back, bytes compare
as keys, and what is accepted is canonical. -/
structure Embeds {K : Type} (codec : KeyCodec K) (lt : K → K → Prop) : Prop where
  roundTrip : ∀ k, ∃ bytes, codec.encodeKey k = .ok bytes ∧ codec.decodeKey bytes = .ok k
  order : ∀ a b x y, codec.encodeKey a = .ok x → codec.encodeKey b = .ok y → (x < y ↔ lt a b)
  canonical : ∀ bytes k, codec.decodeKey bytes = .ok k → codec.encodeKey k = .ok bytes

/-- A codec whose encoder cannot fail. -/
theorem embeds_of_encode {K : Type} {codec : KeyCodec K} {lt : K → K → Prop} (encode : K → Bytes)
    (hencode : ∀ k, codec.encodeKey k = .ok (encode k))
    (hround : ∀ k, codec.decodeKey (encode k) = .ok k)
    (horder : ∀ a b, encode a < encode b ↔ lt a b)
    (hcanonical : ∀ bytes k, codec.decodeKey bytes = .ok k → encode k = bytes) :
    Embeds codec lt where
  roundTrip k := ⟨encode k, hencode k, hround k⟩
  order a b x y hx hy := by
    rw [hencode] at hx hy
    rw [← Except.ok.inj hx, ← Except.ok.inj hy]
    exact horder a b
  canonical bytes k hk := by rw [hencode, hcanonical bytes k hk]

/-! ## Numbers -/

/-- `fixed` accepts bytes of the length and returns them. -/
theorem fixed_eq_ok {n : Nat} {bytes x : Bytes} {name : String} :
    fixed n bytes name = .ok x ↔ bytes.length = n ∧ x = bytes := by
  rw [fixed]
  split_ifs with h
  · simp [h, eq_comm]
  · simp [h]

/-- Big-endian bytes compare as the numbers. -/
theorem beBytes_lt_iff {w m n : Nat} (hm : m < 256 ^ w) (hn : n < 256 ^ w) :
    beBytes w m < beBytes w n ↔ m < n := by
  refine ⟨fun h => ?_, fun h => beBytes_lt h hn⟩
  by_contra hle
  rcases Nat.lt_or_eq_of_le (not_lt.mp hle) with hlt | heq
  · exact h.asymm (beBytes_lt hlt hm)
  · rw [heq] at h
    exact lt_irrefl _ h

/-- A word has eight bytes. -/
theorem word_lt (x : UInt64) : x.toNat < 256 ^ 8 := x.toNat_lt

/-- A word is read back from its bytes. -/
theorem ofNat_beBytes (x : UInt64) : UInt64.ofNat (ofBeBytes (beBytes 8 x.toNat)) = x := by
  rw [ofBeBytes_beBytes (word_lt x), UInt64.ofNat_toNat]

/-- Eight bytes are read back from their word. -/
theorem beBytes_ofNat {bytes : Bytes} (h : bytes.length = 8) :
    beBytes 8 (UInt64.ofNat (ofBeBytes bytes)).toNat = bytes := by
  have hlt : ofBeBytes bytes < 2 ^ 64 := by
    have hbound := ofBeBytes_lt bytes
    rwa [h] at hbound
  rw [UInt64.toNat_ofNat', Nat.mod_eq_of_lt hlt, ← h, beBytes_ofBeBytes]

/-- Unsigned numbers. -/
theorem u64_embeds : Embeds u64Codec (· < ·) := by
  refine embeds_of_encode (fun k => beBytes 8 k.toNat) (fun _ => rfl) (fun k => ?_)
    (fun a b => ?_) fun bytes k hk => ?_
  · show (fixed 8 (beBytes 8 k.toNat) "u64 key" >>= _) = _
    rw [fixed_eq_ok.mpr ⟨length_beBytes 8 _, rfl⟩]
    show Except.ok (UInt64.ofNat (ofBeBytes (beBytes 8 k.toNat))) = _
    rw [ofNat_beBytes]
  · rw [beBytes_lt_iff (word_lt a) (word_lt b), UInt64.lt_iff_toNat_lt]
  · obtain ⟨x, hx, hread⟩ := except_bind_eq_ok.mp hk
    obtain ⟨hlen, rfl⟩ := fixed_eq_ok.mp hx
    rw [← Except.ok.inj hread]
    exact beBytes_ofNat hlen

/-- Flipping the sign bit adds half the range. -/
theorem xor_signBit_toNat (k : Int64) :
    ((k.toUInt64 ^^^ signBit).toNat : Int) = k.toInt + 2 ^ 63 := by
  have hbit : signBit.toNat = 2 ^ 63 := rfl
  have hint : k.toInt = if 2 * k.toUInt64.toNat < 2 ^ 64 then (k.toUInt64.toNat : Int)
      else k.toUInt64.toNat - (2 ^ 64 : Nat) := BitVec.toInt_eq_toNat_cond k.toBitVec
  have hlt : k.toUInt64.toNat < 2 ^ 64 := k.toUInt64.toNat_lt
  rw [UInt64.toNat_xor, hbit, hint]
  by_cases hhalf : k.toUInt64.toNat < 2 ^ 63
  · rw [xor_two_pow_of_lt hhalf, if_pos (by omega)]
    omega
  · rw [xor_two_pow_of_ge (not_lt.mp hhalf) hlt, if_neg (by omega)]
    omega

/-- The sign bit is flipped twice. -/
theorem xor_signBit_self (x : UInt64) : x ^^^ signBit ^^^ signBit = x := by
  rw [UInt64.xor_assoc, UInt64.xor_self, UInt64.xor_zero]

/-- Signed numbers: the flipped sign bit puts the negative ones first. -/
theorem i64_embeds : Embeds i64Codec (· < ·) := by
  refine embeds_of_encode (fun k => beBytes 8 (k.toUInt64 ^^^ signBit).toNat)
    (fun _ => rfl) (fun k => ?_) (fun a b => ?_) fun bytes k hk => ?_
  · show (fixed 8 (beBytes 8 (k.toUInt64 ^^^ signBit).toNat) "i64 key" >>= _) = _
    rw [fixed_eq_ok.mpr ⟨length_beBytes 8 _, rfl⟩]
    show Except.ok (UInt64.ofNat (ofBeBytes (beBytes 8 (k.toUInt64 ^^^ signBit).toNat)) ^^^
      signBit).toInt64 = _
    rw [ofNat_beBytes, xor_signBit_self]
    rfl
  · rw [beBytes_lt_iff (word_lt _) (word_lt _), Int64.lt_iff_toInt_lt]
    have ha := xor_signBit_toNat a
    have hb := xor_signBit_toNat b
    omega
  · obtain ⟨x, hx, hread⟩ := except_bind_eq_ok.mp hk
    obtain ⟨hlen, rfl⟩ := fixed_eq_ok.mp hx
    rw [← Except.ok.inj hread]
    show beBytes 8 ((UInt64.ofNat (ofBeBytes x) ^^^ signBit).toInt64.toUInt64 ^^^ signBit).toNat = x
    rw [show (UInt64.ofNat (ofBeBytes x) ^^^ signBit).toInt64.toUInt64 =
      UInt64.ofNat (ofBeBytes x) ^^^ signBit from rfl, xor_signBit_self]
    exact beBytes_ofNat hlen

/-! ## Strings -/

/-- A text is read back from its bytes. -/
theorem fromUtf8_bytes (s : Text) : Text.fromUtf8 s.bytes = .ok s := by
  unfold Text.fromUtf8
  split
  · rfl
  · rename_i e h
    rw [s.valid] at h
    cases h

/-- Bytes that are a text are the bytes of that text. -/
theorem bytes_of_fromUtf8 {bytes : Bytes} {s : Text} (h : Text.fromUtf8 bytes = .ok s) :
    s.bytes = bytes := by
  unfold Text.fromUtf8 at h
  split at h
  · rw [← Except.ok.inj h]
  · cases h

/-- A character of three bytes, and two bytes that end a longer one too early. -/
example : (Text.fromUtf8 [0xE2, 0x82, 0xAC]).isOk = true ∧
    validateUtf8 0 [0x41, 0xE2, 0x82] = .error ⟨1, none⟩ ∧
    validateUtf8 0 [0x41, 0xC0, 0x80] = .error ⟨1, some 1⟩ := by
  decide

/-- Texts. -/
theorem string_embeds : Embeds stringCodec (· < ·) :=
  embeds_of_encode Text.bytes (fun _ => rfl) fromUtf8_bytes (fun _ _ => Iff.rfl)
    fun _ _ hk => bytes_of_fromUtf8 hk

/-- Byte strings. -/
theorem bytes_embeds : Embeds bytesKeyCodec (· < ·) :=
  embeds_of_encode id (fun _ => rfl) (fun _ => rfl) (fun _ _ => Iff.rfl)
    fun _ _ hk => (Except.ok.inj hk).symm

/-! ## Pairs of strings -/

/-- A byte other than zero stands for itself. -/
theorem unescapeLoop_of_ne {byte : UInt8} (h : byte ≠ 0) (result rest : Bytes) (index : Nat) :
    unescapeLoop result index (byte :: rest) =
      unescapeLoop (result ++ [byte]) (index + 1) rest := by
  cases rest <;> simp [unescapeLoop, h]

/-- The loop reads one frame and stops behind it. -/
theorem unescapeLoop_frame (l rest : Bytes) :
    ∀ (result : Bytes) (index : Nat), unescapeLoop result index (frame 0 255 l ++ rest) = do
      let value ← Text.fromUtf8 (result ++ l)
      return (value, index + (frame 0 255 l).length) := by
  induction l with
  | nil =>
    intro result index
    rw [List.append_nil]
    rfl
  | cons c l ih =>
    intro result index
    rw [frame_cons]
    by_cases hc : c = 0
    · rw [hc, escapeOne_zero]
      show unescapeLoop (result ++ [0]) (index + 2) (frame 0 255 l ++ rest) = _
      rw [ih, List.append_assoc, List.singleton_append, List.length_append, Nat.add_assoc]
      rfl
    · rw [escapeOne_of_ne hc]
      show unescapeLoop result index (c :: (frame 0 255 l ++ rest)) = _
      rw [unescapeLoop_of_ne hc, ih, List.append_assoc, List.singleton_append,
        List.length_append, Nat.add_assoc]
      rfl

/-- What the loop accepts begins with the frame of the string that it answers. -/
theorem unescapeLoop_ok (bytes : Bytes) (result : Bytes) (index : Nat) {value : Text} {used : Nat}
    (h : unescapeLoop result index bytes = .ok (value, used)) :
    ∃ l rest, bytes = frame 0 255 l ++ rest ∧ value.bytes = result ++ l ∧
      used = index + (frame 0 255 l).length := by
  fun_induction unescapeLoop result index bytes with
  | case1 => cases h
  | case2 result index byte rest hne ih =>
    obtain ⟨l, rest', rfl, hvalue, rfl⟩ := ih h
    refine ⟨byte :: l, rest', ?_, ?_, ?_⟩
    · rw [frame_cons, escapeOne_of_ne hne]
      rfl
    · rw [hvalue, List.append_assoc]
      rfl
    · rw [frame_cons, escapeOne_of_ne hne, List.length_append]
      simp only [List.length_singleton]
      omega
  | case3 => cases h
  | case4 result index byte hzero rest ih =>
    obtain ⟨l, rest', rfl, hvalue, rfl⟩ := ih h
    refine ⟨0 :: l, rest', ?_, ?_, ?_⟩
    · rw [frame_cons, escapeOne_zero, not_not.mp hzero]
      rfl
    · rw [hvalue, List.append_assoc]
      rfl
    · rw [frame_cons, escapeOne_zero, List.length_append]
      show index + 2 + _ = index + (2 + _)
      omega
  | case5 result index byte hzero rest hnext =>
    obtain ⟨value', hvalue, heq⟩ := except_bind_eq_ok.mp h
    obtain ⟨rfl, rfl⟩ := Prod.mk.inj (Except.ok.inj heq)
    refine ⟨[], rest, ?_, ?_, rfl⟩
    · rw [not_not.mp hzero]
      rfl
    · rw [bytes_of_fromUtf8 hvalue, List.append_nil]
  | case6 => cases h

/-- An escaped text is read back, and what follows it is left. -/
theorem unescape_escape (s : Text) (rest : Bytes) :
    unescape (escape s ++ rest) = .ok (s, (escape s).length) := by
  rw [unescape, escape, unescapeLoop_frame, List.nil_append, fromUtf8_bytes, Nat.zero_add]
  rfl

/-- What is read is an escaped text. -/
theorem unescape_ok {bytes : Bytes} {s : Text} {used : Nat} (h : unescape bytes = .ok (s, used)) :
    ∃ rest, bytes = escape s ++ rest ∧ used = (escape s).length := by
  obtain ⟨l, rest, rfl, hvalue, rfl⟩ := unescapeLoop_ok bytes [] 0 h
  rw [List.nil_append] at hvalue
  exact ⟨rest, by rw [escape, hvalue], by rw [escape, hvalue, Nat.zero_add]⟩

/-- Escaped texts compare before what follows them. -/
theorem escape_append_lt (a b : Text) (x y : Bytes) :
    escape a ++ x < escape b ++ y ↔ a < b ∨ a = b ∧ x < y := by
  have hzero : ∀ c : UInt8, 0 ≤ c := fun c => by
    rw [UInt8.le_iff_toNat_le]
    exact Nat.zero_le _
  have heq : a = b ↔ a.bytes = b.bytes := by
    cases a
    cases b
    simp
  rw [escape, escape, frame_append_lt hzero (by decide), heq]
  exact Iff.rfl

/-- Pairs of texts, in lexicographic order. -/
theorem pair_embeds : Embeds stringPairCodec (Prod.Lex (· < ·) (· < ·)) := by
  refine embeds_of_encode (fun k => escape k.1 ++ escape k.2) (fun _ => rfl) (fun k => ?_)
    (fun a b => ?_) fun bytes k hk => ?_
  · show (unescape (escape k.1 ++ escape k.2) >>= _) = _
    rw [unescape_escape]
    show (unescape ((escape k.1 ++ escape k.2).drop (escape k.1).length) >>= _) = _
    rw [List.drop_left, ← List.append_nil (escape k.2), unescape_escape]
    show (if (escape k.1).length + (escape k.2).length ≠ _ then _ else _) = _
    rw [if_neg (by simp)]
    rfl
  · have hsecond : escape a.2 < escape b.2 ↔ a.2 < b.2 := by
      simpa using escape_append_lt a.2 b.2 [] []
    rw [escape_append_lt, hsecond, Prod.lex_iff]
  · obtain ⟨⟨first, used⟩, hfirst, hrest⟩ := except_bind_eq_ok.mp hk
    obtain ⟨⟨second, tail⟩, hsecond, hlast⟩ := except_bind_eq_ok.mp hrest
    obtain ⟨rest, rfl, rfl⟩ := unescape_ok hfirst
    rw [List.drop_left] at hsecond
    obtain ⟨rest', rfl, rfl⟩ := unescape_ok hsecond
    dsimp only at hlast
    split_ifs at hlast with hlen
    · cases hlast
    · obtain rfl := Except.ok.inj hlast
      have hnil : rest' = [] := by
        simp only [List.length_append, not_not] at hlen
        exact List.eq_nil_of_length_eq_zero (by omega)
      rw [hnil, List.append_nil]

/-- **The key codecs are order embeddings**: for numbers of 64 bits with and without a sign,
strings, bytes and pairs of strings in lexicographic order. -/
theorem key_codecs_embed :
    Embeds u64Codec (· < ·) ∧ Embeds i64Codec (· < ·) ∧ Embeds stringCodec (· < ·) ∧
      Embeds bytesKeyCodec (· < ·) ∧ Embeds stringPairCodec (Prod.Lex (· < ·) (· < ·)) :=
  ⟨u64_embeds, i64_embeds, string_embeds, bytes_embeds, pair_embeds⟩

end Tagdata.Analysis
