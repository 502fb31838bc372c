import BlockForest.Bytes.Source
import BlockForest.Settings
import BlockForest.Tree.Basic
import BlockForest.Value.Encoding

/-!
# Failures of streams

Why a block cannot be written or read, and why a stream cannot be opened, written or loaded,
each with its text.
-/

set_option autoImplicit false

namespace BlockForest

/-- What is wrong with the contents of a block. -/
inductive Corruption where
  | missingPairs (typeName : String) (count : UInt32)
  | value (cause : Value.DecodeError)
  | missingSlot (slot : Nat) (typeName : String)
  | trailingBytes (count : Nat) (typeName : String)
  | notALibrary (typeName : String) (children : UInt32)
deriving DecidableEq

def Corruption.message : Corruption → String
  | .missingPairs typeName count =>
    "properties payload of " ++ typeName ++ " ends before its " ++ toString count.toNat
      ++ " pairs"
  | .value cause => cause.message
  | .missingSlot slot typeName =>
    "missing property slot " ++ toString slot ++ " of " ++ typeName
  | .trailingBytes count typeName =>
    toString count ++ " trailing bytes after the properties of " ++ typeName
  | .notALibrary typeName children =>
    typeName ++ " is not a library but declares " ++ toString children.toNat ++ " children"

/-- Why a block could not be written to a stream or read from it. -/
inductive CodecError where
  | buffer (cause : BufferError)
  | unknownBlockType (id : UInt32)
  | unregistered (block : BlockId)
  | unknownProperty (typeName : String) (property : UInt32)
  | propertyWrite (typeName property : String) (cause : PropertyError)
  | corrupt (cause : Corruption)
  | depthExceeded (limit : Nat)
  | payloadTooLarge (size : Nat) (limit : UInt32)
  | tree (cause : TreeError)
deriving DecidableEq

/-- The name of the kind of a failure, with that of the failure behind it. -/
def CodecError.kind : CodecError → String
  | .buffer _ => "Io"
  | .unknownBlockType _ => "UnknownBlockType"
  | .unregistered _ => "Unregistered"
  | .unknownProperty _ _ => "UnknownProperty"
  | .propertyWrite _ _ cause => "PropertyWrite." ++ cause.kind
  | .corrupt _ => "Corrupt"
  | .depthExceeded _ => "DepthExceeded"
  | .payloadTooLarge _ _ => "PayloadTooLarge"
  | .tree cause => "Tree." ++ cause.kind

def CodecError.message : CodecError → String
  | .buffer cause => "I/O error: " ++ cause.message
  | .unknownBlockType id => "Unknown block type identifier " ++ Bytes.hexWord id
  | .unregistered block =>
    "Block " ++ block.text ++ " has no registered type and cannot be serialized"
  | .unknownProperty typeName property =>
    "Unknown property identifier " ++ Bytes.hexWord property ++ " for block type " ++ typeName
  | .propertyWrite typeName property cause =>
    "Failed to write property " ++ property ++ " of " ++ typeName ++ ": " ++ cause.message
  | .corrupt cause => "Corrupt stream: " ++ cause.message
  | .depthExceeded limit => "Blocks nested deeper than " ++ toString limit ++ " levels"
  | .payloadTooLarge size limit =>
    "Properties payload of " ++ toString size ++ " bytes exceeds the limit of "
      ++ toString limit.toNat ++ " bytes"
  | .tree cause => cause.message

/-- Why a stream could not be opened, written or loaded. -/
inductive StreamError where
  | buffer (cause : BufferError)
  | invalidSignature (signature : UInt32)
  | unsupportedVersion (version : UInt32)
  | unsupportedEncoding (version : UInt32)
  /-- The length of the metadata is no 32-bit word. -/
  | metadataTooLarge (size : Nat)
  | settings (cause : SettingsError)
  | codec (cause : CodecError)
deriving DecidableEq

/-- The name of the kind of a failure, with that of the failure behind it. -/
def StreamError.kind : StreamError → String
  | .buffer _ => "Io"
  | .invalidSignature _ => "InvalidSignature"
  | .unsupportedVersion _ => "UnsupportedVersion"
  | .unsupportedEncoding _ => "UnsupportedEncoding"
  | .metadataTooLarge _ => "MetadataTooLarge"
  | .settings cause => "Config." ++ cause.kind
  | .codec cause => "Codec." ++ cause.kind

/-- The text of a failure, for those that have one of their own. -/
def StreamError.message? : StreamError → Option String
  | .buffer cause => some ("I/O error: " ++ cause.message)
  | .invalidSignature signature => some ("Invalid stream signature " ++ Bytes.hexWord signature)
  | .unsupportedVersion version =>
    some ("Unsupported stream format version " ++ toString version.toNat)
  | .unsupportedEncoding version =>
    some ("Unsupported value encoding version " ++ toString version.toNat)
  | .metadataTooLarge size =>
    some ("Metadata blob of " ++ toString size ++ " bytes is too large")
  | .settings cause => cause.message?
  | .codec cause => some cause.message

end BlockForest
