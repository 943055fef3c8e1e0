import ReferralForest.Proofs.Records

/-!
# What reading a record accepts

A record is read from bytes that begin with it written, and from no others: a field takes
its own bytes off the front, or it fails for bytes that are missing or for a type that is
unknown. So a record is read exactly when all its bytes are there and its type is known.
Where both are wrong the field that comes first decides: a net value has its type in front,
a referral at its end.
-/

namespace ReferralForest

theorem AddressType.known_or_unknown (byte : UInt8) : (∃ kind : AddressType, kind.toByte = byte) ∨
    ofByte byte = .error (.unknownAddressType byte) ∧ 3 < byte := by
  by_cases h : byte ≤ 3
  · have hbyte : byte = 0 ∨ byte = 1 ∨ byte = 2 ∨ byte = 3 := by grind
    rcases hbyte with rfl | rfl | rfl | rfl
    · exact .inl ⟨unset, rfl⟩
    · exact .inl ⟨wallet, rfl⟩
    · exact .inl ⟨script, rfl⟩
    · exact .inl ⟨parameterizedScript, rfl⟩
  · refine .inr ⟨?_, UInt8.not_le.mp h⟩
    rw [ofByte]
    grind

theorem AddressType.toByte_le (kind : AddressType) : kind.toByte ≤ 3 := by
  cases kind <;> decide

namespace Field
variable {α β : Type} {b rest : Bytes} {e : Malformed}

theorem bind_eq_ok {r : Except Malformed α} {f : α → Except Malformed β} {x : β}
    (h : r >>= f = .ok x) : ∃ a, r = .ok a ∧ f a = .ok x := by
  cases r with
  | ok a => exact ⟨a, rfl, h⟩
  | error e => cases h

theorem bind_eq_error {r : Except Malformed α} {f : α → Except Malformed β}
    (h : r >>= f = .error e) : r = .error e ∨ ∃ a, r = .ok a ∧ f a = .error e := by
  cases r with
  | ok a => exact .inr ⟨a, rfl, h⟩
  | error e' => exact .inl (congrArg _ (Except.error.inj h))

theorem fixed_eq_ok {width : Nat} {x : FixedBytes width} (h : fixed width b = .ok (x, rest)) :
    b = x.toBytes ++ rest := by
  rw [fixed] at h
  cases hfront : FixedBytes.ofBytes? width (b.take width) with
  | none => simp [hfront] at h
  | some front =>
    obtain ⟨rfl, rfl⟩ : front = x ∧ b.drop width = rest := by simpa [hfront] using h
    rw [← FixedBytes.ofBytes?_eq_some.mp hfront, List.take_append_drop]

theorem fixed_eq_error {width : Nat} (h : fixed width b = .error e) :
    e = .endOfInput ∧ b.length < width := by
  rw [fixed, FixedBytes.ofBytes?] at h
  by_cases hlength : (b.take width).length = width
  · simp [hlength] at h
  · simp only [hlength, dif_neg, not_false_eq_true, Except.error.injEq] at h
    rw [List.length_take] at hlength
    exact ⟨h.symm, by omega⟩

theorem fixed_bind_eq_ok {width : Nat} {f : FixedBytes width × Bytes → Except Malformed β} {y : β}
    (h : fixed width b >>= f = .ok y) : ∃ x rest, b = x.toBytes ++ rest ∧ f (x, rest) = .ok y := by
  obtain ⟨⟨x, rest⟩, hfixed, h⟩ := bind_eq_ok h
  exact ⟨x, rest, fixed_eq_ok hfixed, h⟩

theorem fixed_bind_eq_error {width : Nat} {f : FixedBytes width × Bytes → Except Malformed β}
    (h : fixed width b >>= f = .error e) : (e = .endOfInput ∧ b.length < width) ∨
      ∃ x rest, b = x.toBytes ++ rest ∧ f (x, rest) = .error e := by
  rcases bind_eq_error h with hfixed | ⟨⟨x, rest⟩, hfixed, h⟩
  · exact .inl (fixed_eq_error hfixed)
  · exact .inr ⟨x, rest, fixed_eq_ok hfixed, h⟩

theorem word_eq_ok {n : Nat} (h : word b = .ok (n, rest)) :
    b = Bytes.littleEndian 8 n ++ rest ∧ n < Bytes.count 8 := by
  obtain ⟨bytes, rest', rfl, hread⟩ := fixed_bind_eq_ok h
  cases hread
  have hbytes := Bytes.littleEndian_ofLittleEndian bytes.toBytes
  have hlt := Bytes.ofLittleEndian_lt bytes.toBytes
  rw [bytes.length_eq] at hbytes hlt
  exact ⟨by rw [hbytes], hlt⟩

theorem word_eq_error (h : word b = .error e) : e = .endOfInput ∧ b.length < 8 := by
  rcases fixed_bind_eq_error h with hshort | ⟨_, _, -, hread⟩
  · exact hshort
  · cases hread

theorem addressType_eq_ok {kind : AddressType} (h : addressType b = .ok (kind, rest)) :
    b = kind.toByte :: rest := by
  cases b with
  | nil => cases h
  | cons byte bytes =>
    rcases AddressType.known_or_unknown byte with ⟨kind, rfl⟩ | ⟨hunknown, -⟩
    · rw [addressType_cons] at h
      cases h
      rfl
    · simp [addressType, hunknown] at h

theorem addressType_eq_error (h : addressType b = .error e) : b = [] ∧ e = .endOfInput ∨
    ∃ byte, b.head? = some byte ∧ 3 < byte ∧ e = .value (.unknownAddressType byte) := by
  cases b with
  | nil => exact .inl ⟨rfl, (Except.error.inj h).symm⟩
  | cons byte bytes =>
    rcases AddressType.known_or_unknown byte with ⟨kind, rfl⟩ | ⟨hunknown, hbyte⟩
    · rw [addressType_cons] at h
      cases h
    · rw [addressType, hunknown] at h
      exact .inr ⟨byte, rfl, hbyte, (Except.error.inj h).symm⟩

theorem addresses_eq_ok {count : Nat} {list : List Address}
    (h : addresses count b = .ok (list, rest)) :
    list.length = count ∧ b = list.flatMap FixedBytes.toBytes ++ rest := by
  induction count generalizing b list with
  | zero =>
    cases h
    exact ⟨rfl, rfl⟩
  | succ count ih =>
    obtain ⟨address, b₁, rfl, h₁⟩ := fixed_bind_eq_ok h
    obtain ⟨⟨others, b₂⟩, hothers, h₂⟩ := bind_eq_ok h₁
    cases h₂
    obtain ⟨hlength, rfl⟩ := ih hothers
    refine ⟨by simp [hlength], ?_⟩
    rw [List.flatMap_cons, List.append_assoc]

theorem addresses_eq_error {count : Nat} (h : addresses count b = .error e) :
    e = .endOfInput ∧ b.length < 20 * count := by
  induction count generalizing b with
  | zero => cases h
  | succ count ih =>
    rcases fixed_bind_eq_error h with ⟨he, hlength⟩ | ⟨address, b₁, rfl, h₁⟩
    · exact ⟨he, by omega⟩
    rcases bind_eq_error h₁ with hothers | ⟨_, _, h₂⟩
    · obtain ⟨he, hlength⟩ := ih hothers
      rw [List.length_append, address.length_eq]
      exact ⟨he, by omega⟩
    · cases h₂

end Field

section Formats

/-- A format in which a record takes the first `width b` of the bytes `b`, perhaps with the
byte of a type among them: what is written is read back with anything behind it, complete
bytes of a known type are read as what they begin with, and others fail as `fails` says. -/
structure RecordFormat {α : Type} (toBytes : α → Bytes) (ofBytes : Bytes → Except Malformed α)
    (fits : α → Prop) (width : Bytes → Nat) (typeByte? : Bytes → Option UInt8)
    (fails : Bytes → Malformed → Prop) : Prop where
  ofBytes_append : ∀ x, fits x → ∀ rest, ofBytes (toBytes x ++ rest) = .ok x
  exists_ofBytes : ∀ b, (∃ x, ofBytes b = .ok x) ↔
    width b ≤ b.length ∧ ∀ byte, typeByte? b = some byte → byte ≤ 3
  toBytes_eq_take : ∀ b x, ofBytes b = .ok x → toBytes x = b.take (width b)
  ofBytes_eq_error : ∀ b e, ofBytes b = .error e ↔ fails b e

variable {α : Type} {toBytes : α → Bytes} {ofBytes : Bytes → Except Malformed α} {fits : α → Prop}
  {width : Bytes → Nat} {typeByte? : Bytes → Option UInt8} {fails : Bytes → Malformed → Prop}

theorem RecordFormat.of_reads
    (happend : ∀ x, fits x → ∀ rest, ofBytes (toBytes x ++ rest) = .ok x)
    (hok : ∀ b x, ofBytes b = .ok x → fits x ∧ toBytes x <+: b)
    (hshape : ∀ x, fits x → ∀ rest, width (toBytes x ++ rest) = (toBytes x).length ∧
      ∀ byte, typeByte? (toBytes x ++ rest) = some byte → byte ≤ 3)
    (herror : ∀ b e, ofBytes b = .error e → fails b e)
    (hfails : ∀ b e, fails b e →
      b.length < width b ∨ ∃ byte, typeByte? b = some byte ∧ 3 < byte)
    (hunique : ∀ b e e', fails b e → fails b e' → e = e') :
    RecordFormat toBytes ofBytes fits width typeByte? fails := by
  have hreadable : ∀ b x, ofBytes b = .ok x →
      width b = (toBytes x).length ∧ toBytes x <+: b ∧
        ∀ byte, typeByte? b = some byte → byte ≤ 3 := by
    intro b x h
    obtain ⟨hfits, rest, rfl⟩ := hok b x h
    exact ⟨(hshape x hfits rest).1, ⟨rest, rfl⟩, (hshape x hfits rest).2⟩
  have hnot : ∀ b e x, fails b e → ofBytes b ≠ .ok x := by
    intro b e x hb h
    obtain ⟨hwidth, hprefix, htype⟩ := hreadable b x h
    rcases hfails b e hb with hshort | ⟨byte, hbyte, hunknown⟩
    · exact absurd hprefix.length_le (by omega)
    · exact absurd hunknown (UInt8.not_lt.mpr (htype byte hbyte))
  refine ⟨happend, fun b => ⟨?_, fun ⟨hwidth, htype⟩ => ?_⟩, fun b x h => ?_,
    fun b e => ⟨herror b e, fun hb => ?_⟩⟩
  · rintro ⟨x, h⟩
    obtain ⟨hwidth, hprefix, htype⟩ := hreadable b x h
    exact ⟨hwidth ▸ hprefix.length_le, htype⟩
  · cases h : ofBytes b with
    | ok x => exact ⟨x, rfl⟩
    | error e =>
      rcases hfails b e (herror b e h) with hshort | ⟨byte, hbyte, hunknown⟩
      · omega
      · exact absurd hunknown (UInt8.not_lt.mpr (htype byte hbyte))
  · obtain ⟨hwidth, hprefix, -⟩ := hreadable b x h
    rw [hwidth]
    exact List.prefix_iff_eq_take.mp hprefix
  · cases h : ofBytes b with
    | ok x => exact absurd h (hnot b e x hb)
    | error e' => rw [hunique b e' e (herror b e' h) hb]

end Formats

namespace Referral
variable {b : Bytes} {r : Referral} {e e' : Malformed}

/-- The type stands behind all other fields, so missing bytes are found first. -/
inductive Unreadable (b : Bytes) : Malformed → Prop
  | short (h : b.length < 85) : Unreadable b .endOfInput
  | unknownType {byte : UInt8} (h : b[84]? = some byte) (hbyte : 3 < byte) :
      Unreadable b (.value (.unknownAddressType byte))

theorem prefix_of_ofBytes (h : ofBytes b = .ok r) : r.toBytes <+: b := by
  obtain ⟨code, b₁, rfl, h₁⟩ := Field.fixed_bind_eq_ok h
  obtain ⟨address, b₂, rfl, h₂⟩ := Field.fixed_bind_eq_ok h₁
  obtain ⟨previous, b₃, rfl, h₃⟩ := Field.fixed_bind_eq_ok h₂
  obtain ⟨⟨kind, rest⟩, hkind, h₄⟩ := Field.bind_eq_ok h₃
  cases h₄
  rw [Field.addressType_eq_ok hkind]
  exact ⟨rest, by simp [toBytes]⟩

theorem length_toBytes (r : Referral) : r.toBytes.length = 85 := by
  simp [toBytes, r.code.length_eq, r.address.length_eq, r.previous.length_eq]

theorem getElem?_toBytes (r : Referral) (rest : Bytes) :
    (r.toBytes ++ rest)[84]? = some r.kind.toByte := by
  simp [toBytes, List.getElem?_append, r.code.length_eq, r.address.length_eq, r.previous.length_eq]

theorem unreadable_of_ofBytes (h : ofBytes b = .error e) : Unreadable b e := by
  rcases Field.fixed_bind_eq_error h with ⟨rfl, hlength⟩ | ⟨code, b₁, rfl, h₁⟩
  · exact .short (by omega)
  rcases Field.fixed_bind_eq_error h₁ with ⟨rfl, hlength⟩ | ⟨address, b₂, rfl, h₂⟩
  · exact .short (by simp [code.length_eq]; omega)
  rcases Field.fixed_bind_eq_error h₂ with ⟨rfl, hlength⟩ | ⟨previous, b₃, rfl, h₃⟩
  · exact .short (by simp [code.length_eq, address.length_eq]; omega)
  rcases Field.bind_eq_error h₃ with hkind | ⟨_, _, h₄⟩
  · rcases Field.addressType_eq_error hkind with ⟨rfl, rfl⟩ | ⟨byte, hbyte, hunknown, rfl⟩
    · exact .short (by simp [code.length_eq, address.length_eq, previous.length_eq])
    · refine .unknownType ?_ hunknown
      rw [List.head?_eq_getElem?] at hbyte
      simpa [List.getElem?_append, code.length_eq, address.length_eq, previous.length_eq]
  · cases h₄

theorem Unreadable.incomplete (h : Unreadable b e) :
    b.length < 85 ∨ ∃ byte, b[84]? = some byte ∧ 3 < byte := by
  cases h with
  | short h => exact .inl h
  | unknownType h hbyte => exact .inr ⟨_, h, hbyte⟩

theorem Unreadable.unique (h : Unreadable b e) (h' : Unreadable b e') : e = e' := by
  have hshort : b.length < 85 ↔ b[84]? = none := by
    rw [List.getElem?_eq_none_iff]
    omega
  cases h with
  | short h =>
    cases h' with
    | short _ => rfl
    | unknownType h' _ => simp [hshort.mp h] at h'
  | unknownType h _ =>
    cases h' with
    | short h' => simp [hshort.mp h'] at h
    | unknownType h' _ => rw [Option.some.inj (h.symm.trans h')]

theorem recordFormat : RecordFormat toBytes ofBytes (fun _ => True) (fun _ => 85)
    (fun b => b[84]?) Unreadable := by
  refine .of_reads (fun r _ => r.ofBytes_append) (fun b r h => ⟨trivial, prefix_of_ofBytes h⟩)
    (fun r _ rest => ⟨r.length_toBytes.symm, fun byte hbyte => ?_⟩)
    (fun b e h => unreadable_of_ofBytes h) (fun b e h => h.incomplete)
    fun b e e' h h' => h.unique h'
  obtain rfl : r.kind.toByte = byte := by simpa [getElem?_toBytes] using hbyte
  exact r.kind.toByte_le

end Referral

namespace NetValue
variable {b : Bytes} {r : NetValue} {e e' : Malformed}

/-- The type stands in front, so it is found unknown before bytes are found missing. -/
inductive Unreadable (b : Bytes) : Malformed → Prop
  | unknownType {byte : UInt8} (h : b.head? = some byte) (hbyte : 3 < byte) :
      Unreadable b (.value (.unknownAddressType byte))
  | short (htype : ∀ byte, b.head? = some byte → byte ≤ 3) (h : b.length < 29) :
      Unreadable b .endOfInput

theorem prefix_of_ofBytes (h : ofBytes b = .ok r) : r.toBytes <+: b := by
  obtain ⟨⟨kind, b₁⟩, hkind, h₁⟩ := Field.bind_eq_ok h
  obtain ⟨origin, b₂, rfl, h₂⟩ := Field.fixed_bind_eq_ok h₁
  obtain ⟨⟨amount, rest⟩, hamount, h₃⟩ := Field.bind_eq_ok h₂
  cases h₃
  obtain ⟨rfl, hlt⟩ := Field.word_eq_ok hamount
  have hword : (UInt64.ofNat amount).toInt64.toUInt64.toNat = amount := Nat.mod_eq_of_lt hlt
  rw [Field.addressType_eq_ok hkind, toBytes, hword]
  exact ⟨rest, by simp⟩

theorem length_toBytes (r : NetValue) : r.toBytes.length = 29 := by
  simp [toBytes, r.origin.length_eq, Bytes.length_littleEndian]

theorem unreadable_of_ofBytes (h : ofBytes b = .error e) : Unreadable b e := by
  rcases Field.bind_eq_error h with hkind | ⟨⟨kind, b₁⟩, hkind, h₁⟩
  · rcases Field.addressType_eq_error hkind with ⟨rfl, rfl⟩ | ⟨byte, hbyte, hunknown, rfl⟩
    · exact .short (by simp) (by simp)
    · exact .unknownType hbyte hunknown
  obtain rfl := Field.addressType_eq_ok hkind
  have htype : ∀ byte, (kind.toByte :: b₁).head? = some byte → byte ≤ 3 := by
    rintro byte ⟨⟩
    exact kind.toByte_le
  rcases Field.fixed_bind_eq_error h₁ with ⟨rfl, hlength⟩ | ⟨origin, b₂, rfl, h₂⟩
  · exact .short htype (by simp; omega)
  rcases Field.bind_eq_error h₂ with hamount | ⟨_, _, h₃⟩
  · obtain ⟨rfl, hlength⟩ := Field.word_eq_error hamount
    exact .short htype (by simp [origin.length_eq]; omega)
  · cases h₃

theorem Unreadable.incomplete (h : Unreadable b e) :
    b.length < 29 ∨ ∃ byte, b.head? = some byte ∧ 3 < byte := by
  cases h with
  | unknownType h hbyte => exact .inr ⟨_, h, hbyte⟩
  | short _ h => exact .inl h

theorem Unreadable.unique (h : Unreadable b e) (h' : Unreadable b e') : e = e' := by
  cases h with
  | unknownType h hbyte =>
    cases h' with
    | unknownType h' _ => rw [Option.some.inj (h.symm.trans h')]
    | short htype _ => exact absurd hbyte (UInt8.not_lt.mpr (htype _ h))
  | short htype _ =>
    cases h' with
    | unknownType h' hbyte => exact absurd hbyte (UInt8.not_lt.mpr (htype _ h'))
    | short _ _ => rfl

theorem recordFormat : RecordFormat toBytes ofBytes (fun _ => True) (fun _ => 29) List.head?
    Unreadable := by
  refine .of_reads (fun r _ => r.ofBytes_append) (fun b r h => ⟨trivial, prefix_of_ofBytes h⟩)
    (fun r _ rest => ⟨r.length_toBytes.symm, ?_⟩) (fun b e h => unreadable_of_ofBytes h)
    (fun b e h => h.incomplete) fun b e e' h h' => h.unique h'
  rintro byte ⟨⟩
  exact r.kind.toByte_le

end NetValue

namespace Children
variable {b : Bytes} {list : List Address} {e : Malformed}

def width (b : Bytes) : Nat := 8 + 20 * Bytes.ofLittleEndian (b.take 8)

inductive Unreadable (b : Bytes) : Malformed → Prop
  | short (h : b.length < width b) : Unreadable b .endOfInput

theorem width_append {n : Nat} (hn : n < Bytes.count 8) (rest : Bytes) :
    width (Bytes.littleEndian 8 n ++ rest) = 8 + 20 * n := by
  rw [width, List.take_left' (Bytes.length_littleEndian 8 n), Bytes.ofLittleEndian_littleEndian,
    Nat.mod_eq_of_lt hn]

theorem prefix_of_ofBytes (h : ofBytes b = .ok list) :
    list.length < UInt64.size ∧ toBytes list <+: b := by
  obtain ⟨⟨count, b₁⟩, hcount, h⟩ := Field.bind_eq_ok h
  obtain ⟨⟨children, rest⟩, hchildren, h⟩ := Field.bind_eq_ok h
  cases h
  obtain ⟨hb, hlt⟩ := Field.word_eq_ok hcount
  obtain ⟨rfl, hb₁⟩ := Field.addresses_eq_ok hchildren
  refine ⟨hlt, rest, ?_⟩
  rw [hb, hb₁, toBytes, List.append_assoc]

theorem unreadable_of_ofBytes (h : ofBytes b = .error e) : Unreadable b e := by
  rcases Field.bind_eq_error h with hcount | ⟨⟨count, b₁⟩, hcount, h₁⟩
  · obtain ⟨rfl, hlength⟩ := Field.word_eq_error hcount
    exact .short (by rw [width]; omega)
  obtain ⟨rfl, hlt⟩ := Field.word_eq_ok hcount
  rcases Field.bind_eq_error h₁ with hchildren | ⟨_, _, h₂⟩
  · obtain ⟨rfl, hlength⟩ := Field.addresses_eq_error hchildren
    refine .short ?_
    rw [width_append hlt, List.length_append, Bytes.length_littleEndian]
    omega
  · cases h₂

theorem recordFormat : RecordFormat toBytes ofBytes (·.length < UInt64.size) width
    (fun _ => none) Unreadable := by
  refine .of_reads (fun list h rest => ?_) (fun b list h => prefix_of_ofBytes h)
    (fun list h rest => ⟨?_, nofun⟩) (fun b e h => unreadable_of_ofBytes h) (fun b e h => ?_)
    fun b e e' h h' => ?_
  · obtain ⟨shown, hread, hshown⟩ := ofBytes_append list rest
    rw [hread, hshown h]
  · rw [toBytes, List.append_assoc, width_append h, ← length_toBytes, toBytes]
  · cases h with
    | short h => exact .inl h
  · cases h
    cases h'
    rfl

end Children

theorem recordFormats :
    RecordFormat Referral.toBytes Referral.ofBytes (fun _ => True) (fun _ => 85)
      (fun b => b[84]?) Referral.Unreadable ∧
    RecordFormat NetValue.toBytes NetValue.ofBytes (fun _ => True) (fun _ => 29)
      List.head? NetValue.Unreadable ∧
    RecordFormat Children.toBytes Children.ofBytes (fun list => list.length < UInt64.size)
      (fun b => 8 + 20 * Bytes.ofLittleEndian (b.take 8)) (fun _ => none) Children.Unreadable :=
  ⟨Referral.recordFormat, NetValue.recordFormat, Children.recordFormat⟩

end ReferralForest
