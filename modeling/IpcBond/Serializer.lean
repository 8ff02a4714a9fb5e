import IpcBond.AdaptiveReader

/-! `Serializer`, and what `Client` and `Server` make of it: the handler of a server is given the request, and the
caller of a client the response, as they are. Of Bond, which knows the types and the protocols, only what it asks of
the buffers enters. -/

namespace IpcBond
open Library.StateExcept

abbrev ProtocolType := Nat

/-- A type as Bond writes and reads it in each of the `Protocols` of the serializers. A value that is marshaled tells
its protocol. -/
structure BondType (T : Type) where
  protocols : List ProtocolType
  serialize : ProtocolType → T → Script
  deserialize : ProtocolType → ReaderProgram T
  marshal : ProtocolType → T → Script
  unmarshal : ReaderProgram T
  serialize_wellFormed : ∀ protocol ∈ protocols, ∀ value, ∀ item ∈ (serialize protocol value).items, item.WellFormed
  marshal_wellFormed : ∀ protocol ∈ protocols, ∀ value, ∀ item ∈ (marshal protocol value).items, item.WellFormed
  deserialize_eq : ∀ protocol ∈ protocols, ∀ value,
    (deserialize protocol).run ReadRequest.answer (serialize protocol value).items = some (value, [])
  unmarshal_eq : ∀ protocol ∈ protocols, ∀ value,
    unmarshal.run ReadRequest.answer (marshal protocol value).items = some (value, [])

inductive SerializerError where
  | unknownProtocol
  | thrown (error : Error)
  deriving DecidableEq, Repr

def SerializerError.ofResult {σ α : Type} : EStateM.Result Error σ α → Except SerializerError α
  | .ok value _ => .ok value
  | .error error _ => .error (.thrown error)

section Functions

variable {T : Type} (type : BondType T) (bond : BondCodec)

def writeWith (write : ProtocolType → T → Script) (protocol : ProtocolType) (pool : BufferPool) (value : T)
    (minBlobSize : Nat) : Except SerializerError ConstBuffer :=
  if protocol ∈ type.protocols then
    SerializerError.ofResult
      (OutputBuffer.produce pool bond (write protocol value).ops .moved (OutputBuffer.members minBlobSize))
  else do
    SerializerError.ofResult (OutputBuffer.setUp pool bond [] (OutputBuffer.members minBlobSize))
    throw .unknownProtocol

def serialize := writeWith type bond type.serialize

def marshal := writeWith type bond type.marshal

def deserialize (protocol : ProtocolType) (buffer : ConstBuffer) : Except SerializerError T :=
  if protocol ∈ type.protocols then
    SerializerError.ofResult ((type.deserialize protocol).run (ReadRequest.read bond) (InputBuffer.ofBuffer buffer))
  else throw .unknownProtocol

def unmarshal (buffer : ConstBuffer) : Except SerializerError T :=
  SerializerError.ofResult (type.unmarshal.run (ReadRequest.read bond) (InputBuffer.ofBuffer buffer))

end Functions

structure Serializer where
  protocol : ProtocolType
  marshal : Bool
  minBlobSize : Nat
  deriving DecidableEq, Repr

namespace Serializer

variable {T : Type} (serializer : Serializer) (type : BondType T) (bond : BondCodec)

def serialize (pool : BufferPool) (value : T) : Except SerializerError ConstBuffer :=
  if serializer.marshal then IpcBond.marshal type bond serializer.protocol pool value serializer.minBlobSize
  else IpcBond.serialize type bond serializer.protocol pool value serializer.minBlobSize

def deserialize (buffer : ConstBuffer) : Except SerializerError T :=
  if serializer.marshal then IpcBond.unmarshal type bond buffer
  else IpcBond.deserialize type bond serializer.protocol buffer

/-- Both ends marshal, or both use one protocol. -/
def Agrees (other : Serializer) : Prop :=
  serializer.marshal = other.marshal ∧ (serializer.marshal = false → serializer.protocol = other.protocol)

instance (other : Serializer) : Decidable (serializer.Agrees other) :=
  inferInstanceAs (Decidable (_ ∧ _))

end Serializer

section Components

variable {Request Response : Type} (serializer : Serializer) (bond : BondCodec)

structure Call (Response : Type) where
  request : ConstBuffer
  callback : ConstBuffer → Except SerializerError Response

def Client.call (requests : BondType Request) (responses : BondType Response) (pool : BufferPool)
    (request : Request) : Except SerializerError (Call Response) := do
  let buffer ← serializer.serialize requests bond pool request
  return ⟨buffer, serializer.deserialize responses bond⟩

/-- What the handler that the constructor of `Server` wraps is given: a future, and a callback for the response. -/
structure Handling (Request Response : Type) where
  request : Except SerializerError Request
  callback : BufferPool → Response → Except SerializerError ConstBuffer

def Server.handle (requests : BondType Request) (responses : BondType Response) (buffer : ConstBuffer) :
    Handling Request Response :=
  ⟨serializer.deserialize requests bond buffer, serializer.serialize responses bond⟩

end Components

section RoundTrip

variable {T : Type} {type : BondType T} {bond : BondCodec}

theorem Serializer.Agrees.symm {serializer other : Serializer} (agree : serializer.Agrees other) :
    other.Agrees serializer :=
  ⟨agree.1.symm, fun unmarshaled => (agree.2 (agree.1.trans unmarshaled)).symm⟩

end RoundTrip

end IpcBond
