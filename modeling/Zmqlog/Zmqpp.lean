import Mathlib.Data.BitVec
import Mathlib.Data.List.Basic

/-! zmqpp messages as the service sees them. A part is a byte string; a
`zmqpp::message` is a list of parts and may be empty until a receive fills it,
while whatever arrives on a socket has at least one part. -/
namespace Zmqlog.Zmqpp

abbrev Frame := List UInt8
abbrev Message := List Frame

def text (literal : String) : Frame :=
  literal.toList.map fun c => UInt8.ofNat c.toNat

/-- A message on the wire: never without a part. -/
structure Wire where
  first : Frame
  more : List Frame
deriving DecidableEq

def Wire.parts (m : Wire) : Message := m.first :: m.more

@[simp] theorem Wire.parts_ne_nil (m : Wire) : m.parts ≠ [] := by
  simp [Wire.parts]

/-- The C++ exceptions that matter here: `zmqpp::exception`, which `run()`
catches around each poll, and `std::invalid_argument`, which nothing catches. -/
inductive Fault
  | zmqpp
  | invalidArgument
deriving DecidableEq

/-- How zmqpp writes a 32-bit integer into one part. Only what the service
relies on is asked for: the round trip, and that nothing but a four-byte part
reads as an integer. -/
structure IntCodec where
  encode : BitVec 32 → Frame
  decode : Frame → Option (BitVec 32)
  decode_encode : ∀ n, decode (encode n) = some n
  length_of_decode : ∀ part n, decode part = some n → part.length = 4

attribute [simp] IntCodec.decode_encode

def networkOrder : IntCodec where
  encode := fun n => [⟨n.extractLsb' 24 8⟩, ⟨n.extractLsb' 16 8⟩, ⟨n.extractLsb' 8 8⟩,
    ⟨n.extractLsb' 0 8⟩]
  decode
    | [a, b, c, d] => some (a.toBitVec ++ b.toBitVec ++ c.toBitVec ++ d.toBitVec)
    | _ => none
  decode_encode := by
    intro n
    apply congrArg some
    apply BitVec.eq_of_getLsbD_eq
    intro i hi
    simp only [BitVec.getLsbD_append, BitVec.getLsbD_extractLsb']
    grind
  length_of_decode := by
    intro part n h
    split at h
    · rfl
    · cases h

/-- `message::get(int&, part)`. An absent part and a part of another size both
fail. -/
def Message.get (C : IntCodec) (m : Message) (part : Nat) : Except Fault (BitVec 32) :=
  match m[part]?.bind C.decode with
  | some n => .ok n
  | none => .error .zmqpp

theorem Message.get_eq_ok {C : IntCodec} {m : Message} {part : Nat} {n : BitVec 32} :
    Message.get C m part = .ok n ↔ m[part]?.bind C.decode = some n := by
  unfold Message.get
  split
  · rename_i found hfound
    rw [hfound]
    constructor
    · intro h
      exact congrArg some (Except.ok.inj h)
    · intro h
      exact congrArg Except.ok (Option.some.inj h)
  · rename_i hnone
    rw [hnone]
    constructor <;> intro h <;> cases h

theorem Message.get_error {C : IntCodec} {m : Message} {part : Nat} {f : Fault}
    (h : Message.get C m part = .error f) : f = .zmqpp := by
  unfold Message.get at h
  split at h
  · cases h
  · exact (Except.error.inj h).symm

/-- `socket::receive(std::string&)` keeps the first part of what arrives. -/
def receiveString (m : Message) : Frame := m.headD []

end Zmqlog.Zmqpp
