import Mathlib.Algebra.Order.Ring.Nat
import Disassembly.Expression.Node

/-!
# What a signature tells

The bytes of a signature are its five fields, one after the other (`Signature.bytes_eq`), so that no byte is left
unread. What is read are the tag of the kind, the position, the immediate, the hash of the symbol and the number of the
parent that were written (`symbolHash_ofFields` and its siblings): writing loses nothing but the symbol
(`Signature.ofFields_lossless`). For drafts whose parents have ids that a store can give out, signatures are equal
exactly if the drafts have the same link and the same parent (`Draft.signature_inj`).
-/

namespace Disassembly

namespace Bytes.LittleEndian

theorem decode_encode {width n : Nat} (h : n < 256 ^ width) : decode (encode width n) = n := by
  induction width generalizing n with
  | zero =>
    obtain rfl : n = 0 := by simpa using h
    rfl
  | succ width ih =>
    have hdiv : n / 256 < 256 ^ width := by
      rw [Nat.pow_succ] at h
      exact Nat.div_lt_of_lt_mul (by omega)
    rw [decode_encode_succ, ih hdiv]
    omega

theorem decode_lt (bytes : List UInt8) : decode bytes < 256 ^ bytes.length := by
  induction bytes with
  | nil => exact Nat.one_pos
  | cons b bytes ih =>
    have hb : b.toNat < 256 := b.toNat_lt
    rw [decode, List.length_cons, Nat.pow_succ]
    omega

/-- Bytes that were read are written again. -/
theorem encode_decode (bytes : List UInt8) : encode bytes.length (decode bytes) = bytes := by
  induction bytes with
  | nil => rfl
  | cons b bytes ih =>
    have hb : b.toNat < 256 := b.toNat_lt
    have hlow : UInt8.ofNat (b.toNat + 256 * decode bytes) = b := by
      refine UInt8.toNat_inj.mp ?_
      rw [UInt8.toNat_ofNat']
      omega
    have hhigh : (b.toNat + 256 * decode bytes) / 256 = decode bytes := by omega
    rw [decode, List.length_cons, encode, hlow, hhigh, ih]

end Bytes.LittleEndian

namespace Expression

open Bytes Text

namespace Signature

variable {s t : Signature} {offset width : Nat}

/-! ### Fields as bytes -/

theorem length_take_drop (h : offset + width ≤ 19) : ((s.bytes.drop offset).take width).length = width := by
  rw [List.length_take, List.length_drop, s.length_bytes]
  omega

theorem field_lt (h : offset + width ≤ 19) : s.field offset width < 256 ^ width := by
  have hlt := LittleEndian.decode_lt ((s.bytes.drop offset).take width)
  rwa [length_take_drop h] at hlt

theorem encode_field (h : offset + width ≤ 19) :
    LittleEndian.encode width (s.field offset width) = (s.bytes.drop offset).take width := by
  have hencode := LittleEndian.encode_decode ((s.bytes.drop offset).take width)
  rwa [length_take_drop h] at hencode

/-- A field takes the bytes up to the next one. -/
theorem drop_eq (offset width : Nat) (h : offset + width ≤ 19) : s.bytes.drop offset =
    LittleEndian.encode width (s.field offset width) ++ s.bytes.drop (offset + width) := by
  rw [encode_field h, ← List.drop_drop, List.take_append_drop]

theorem toNat_kindTag (s : Signature) : s.kindTag.toNat = s.field 0 1 :=
  UInt8.toNat_ofNat_of_lt' (field_lt (by decide))

theorem toNat_position (s : Signature) : s.position.toNat = s.field 1 2 :=
  UInt16.toNat_ofNat_of_lt' (field_lt (by decide))

theorem toNat_immediate (s : Signature) : s.immediate.toUInt64.toNat = s.field 3 8 :=
  UInt64.toNat_ofNat_of_lt' (field_lt (by decide))

theorem toNat_symbolHash (s : Signature) : s.symbolHash.toNat = s.field 11 4 :=
  UInt32.toNat_ofNat_of_lt' (field_lt (by decide))

theorem toNat_parent (s : Signature) : s.parent.toNat = s.field 15 4 :=
  UInt32.toNat_ofNat_of_lt' (field_lt (by decide))

/-- The bytes of a signature are its fields. -/
theorem bytes_eq (s : Signature) : s.bytes =
    LittleEndian.encode 1 s.kindTag.toNat ++ (LittleEndian.encode 2 s.position.toNat ++
      (LittleEndian.encode 8 s.immediate.toUInt64.toNat ++ (LittleEndian.encode 4 s.symbolHash.toNat ++
        LittleEndian.encode 4 s.parent.toNat))) := by
  have hend : s.bytes.drop (15 + 4) = [] := List.drop_of_length_le s.length_bytes.le
  calc s.bytes = s.bytes.drop 0 := rfl
    _ = _ := by
      rw [drop_eq 0 1 (by decide), drop_eq (0 + 1) 2 (by decide), drop_eq (0 + 1 + 2) 8 (by decide),
        drop_eq (0 + 1 + 2 + 8) 4 (by decide), drop_eq (0 + 1 + 2 + 8 + 4) 4 (by decide)]
      rw [hend, List.append_nil, toNat_kindTag, toNat_position, toNat_immediate, toNat_symbolHash, toNat_parent]

theorem bytes_inj : s.bytes = t.bytes ↔ s = t := by
  refine ⟨fun h => ?_, congrArg bytes⟩
  cases s
  cases t
  cases h
  rfl

/-- Signatures from which the same is read are the same. -/
theorem eq_iff : s = t ↔ s.kindTag = t.kindTag ∧ s.position = t.position ∧ s.immediate = t.immediate ∧
    s.symbolHash = t.symbolHash ∧ s.parent = t.parent := by
  constructor
  · rintro rfl
    exact ⟨rfl, rfl, rfl, rfl, rfl⟩
  · rintro ⟨hkind, hposition, himmediate, hsymbol, hparent⟩
    rw [← bytes_inj, s.bytes_eq, t.bytes_eq, hkind, hposition, himmediate, hsymbol, hparent]

variable (kind : Kind) (position : UInt16) (immediate : Int64) (symbol : String) (parent : UInt32)

/-! ### Reading the fields back -/

theorem field_eq {s : Signature} {offset width n : Nat}
    (hs : (s.bytes.drop offset).take width = LittleEndian.encode width n) (hn : n < 256 ^ width) :
    s.field offset width = n := by
  rw [field, hs, LittleEndian.decode_encode hn]

@[simp] theorem kindTag_ofFields : (ofFields kind position immediate symbol parent).kindTag = kind.tag := by
  have h : (ofFields kind position immediate symbol parent).field 0 1 = kind.tag.toNat :=
    field_eq (by simp [ofFields]) kind.tag.toNat_lt
  rw [kindTag, h, UInt8.ofNat_toNat]

@[simp] theorem position_ofFields :
    (ofFields kind position immediate symbol parent).position = position := by
  have h : (ofFields kind position immediate symbol parent).field 1 2 = position.toNat :=
    field_eq (by simp [ofFields]) position.toNat_lt
  rw [Signature.position, h, UInt16.ofNat_toNat]

@[simp] theorem immediate_ofFields :
    (ofFields kind position immediate symbol parent).immediate = immediate := by
  have h : (ofFields kind position immediate symbol parent).field 3 8 = immediate.toUInt64.toNat :=
    field_eq (by simp [ofFields, List.drop_append, List.drop_of_length_le]) immediate.toUInt64.toNat_lt
  rw [Signature.immediate, h, UInt64.ofNat_toNat]
  rfl

@[simp] theorem symbolHash_ofFields :
    (ofFields kind position immediate symbol parent).symbolHash = Sdbm.hash symbol := by
  have h : (ofFields kind position immediate symbol parent).field 11 4 = (Sdbm.hash symbol).toNat :=
    field_eq (by simp [ofFields, List.drop_append, List.drop_of_length_le]) (Sdbm.hash symbol).toNat_lt
  rw [symbolHash, h, UInt32.ofNat_toNat]

@[simp] theorem parent_ofFields : (ofFields kind position immediate symbol parent).parent = parent := by
  have h : (ofFields kind position immediate symbol parent).field 15 4 = parent.toNat :=
    field_eq (by simp [ofFields, List.drop_append, List.drop_of_length_le, List.take_of_length_le])
      parent.toNat_lt
  rw [Signature.parent, h, UInt32.ofNat_toNat]

variable {kind position immediate symbol parent} {kind' : Kind} {position' : UInt16} {immediate' : Int64}
  {symbol' : String} {parent' : UInt32}

/-- Signatures tell everything apart but symbols of the same hash. -/
theorem ofFields_inj :
    ofFields kind position immediate symbol parent = ofFields kind' position' immediate' symbol' parent' ↔
      kind = kind' ∧ position = position' ∧ immediate = immediate' ∧
        Sdbm.hash symbol = Sdbm.hash symbol' ∧ parent = parent' := by
  have htag : kind.tag = kind'.tag ↔ kind = kind' := ⟨Kind.tag_inj, congrArg Kind.tag⟩
  simp only [eq_iff, kindTag_ofFields, position_ofFields, immediate_ofFields, symbolHash_ofFields, parent_ofFields,
    htag]

/-- What is written into a signature is read from it, and nothing else gives the same bytes: neither other values, but
for symbols with the same hash, nor any other signature from which the same is read. -/
theorem ofFields_lossless (kind : Kind) (position : UInt16) (immediate : Int64) (symbol : String) (parent : UInt32) :
    let s := ofFields kind position immediate symbol parent
    (s.kindTag = kind.tag ∧ s.position = position ∧ s.immediate = immediate ∧ s.symbolHash = Sdbm.hash symbol ∧
        s.parent = parent) ∧
      (∀ (kind' : Kind) (position' : UInt16) (immediate' : Int64) (symbol' : String) (parent' : UInt32),
        s.bytes = (ofFields kind' position' immediate' symbol' parent').bytes ↔ kind.tag = kind'.tag ∧
          position = position' ∧ immediate = immediate' ∧ Sdbm.hash symbol = Sdbm.hash symbol' ∧ parent = parent') ∧
      ∀ t : Signature, s.bytes = t.bytes ↔ kind.tag = t.kindTag ∧ position = t.position ∧
        immediate = t.immediate ∧ Sdbm.hash symbol = t.symbolHash ∧ parent = t.parent := by
  refine ⟨⟨kindTag_ofFields .., position_ofFields .., immediate_ofFields .., symbolHash_ofFields ..,
    parent_ofFields ..⟩, fun kind' position' immediate' symbol' parent' => ?_, fun t => ?_⟩
  · simp only [bytes_inj, eq_iff, kindTag_ofFields, position_ofFields, immediate_ofFields, symbolHash_ofFields,
      parent_ofFields]
  · simp only [bytes_inj, eq_iff, kindTag_ofFields, position_ofFields, immediate_ofFields, symbolHash_ofFields,
      parent_ofFields]

end Signature

/-! ### Signatures of drafts -/

/-- What a node says of itself to its signature; its parent is not part of it. -/
structure Link where
  /-- What the node stands for. -/
  kind : Kind
  /-- Its slot among the children of its parent. -/
  position : UInt16
  /-- Its immediate value, or the bits of one. -/
  immediate : Int64
  /-- The hash of its symbol. -/
  symbolHash : UInt32
  deriving DecidableEq, Repr

namespace Draft

/-- The link of a draft. -/
def link {ρ : Type} (draft : Draft ρ) : Link where
  kind := draft.kind
  position := draft.position
  immediate := draft.immediate
  symbolHash := Sdbm.hash draft.symbol

theorem toNat_parentNumber {parent : Option NodeId} (h : ∀ id ∈ parent, id.number < UInt32.size) :
    (parentNumber parent).toNat = parent.elim 0 NodeId.number := by
  cases parent with
  | none => rfl
  | some id => exact UInt32.toNat_ofNat_of_lt' (h id rfl)

/-- Ids that fit in 32 bits have numbers of their own. -/
theorem parentNumber_inj {a b : Option NodeId} (ha : ∀ id ∈ a, id.number < UInt32.size)
    (hb : ∀ id ∈ b, id.number < UInt32.size) : parentNumber a = parentNumber b ↔ a = b := by
  refine ⟨fun h => ?_, fun h => by rw [h]⟩
  have h := congrArg UInt32.toNat h
  rw [toNat_parentNumber ha, toNat_parentNumber hb] at h
  cases a with
  | none =>
    cases b with
    | none => rfl
    | some b => simp [NodeId.number] at h
  | some a =>
    cases b with
    | none => simp [NodeId.number] at h
    | some b =>
      obtain ⟨a⟩ := a
      obtain ⟨b⟩ := b
      simpa [NodeId.number] using h

/-- Two drafts ask for the same node if they have the same link and the same parent. -/
theorem signature_inj {a b : Draft NodeId} (ha : ∀ id ∈ a.parent, id.number < UInt32.size)
    (hb : ∀ id ∈ b.parent, id.number < UInt32.size) :
    a.signature = b.signature ↔ a.link = b.link ∧ a.parent = b.parent := by
  rw [signature, signature, Signature.ofFields_inj, parentNumber_inj ha hb]
  simp only [link, Link.mk.injEq]
  tauto

end Draft

/-- The link of a node. -/
def Node.link (node : Node) : Link := node.toDraft.link

end Expression

end Disassembly
