import DarwinVm.Dt.Format

/-!
# The passthrough provider

`tools/re/power_passthrough_dt.py`: the strict parser that keeps the bytes of each property, and
`generate`, which appends one leaf to the children of `arm-io` and checks what it has done.

The interpreter's recursion limit is a parameter. `limit` is the number of levels of a tree that
`parse_node` can go down; a deeper one raises `RecursionError`.
-/

namespace DarwinVm.Dt.Passthrough

/-- `PROVIDER_NAME` -/
def providerName : Text := "charger,passthrough".toList

/-- `ARM_IO_NAME` -/
def armIoName : Text := "arm-io".toList

/-- A `Property`. -/
structure Property where
  name : Text
  raw : Bytes
  deriving DecidableEq

/-- A `Node`, with its `properties` and its `children`. -/
abbrev Node := Tree Property

/-- The messages of `DTError`. -/
inductive Message
  /-- `"truncated node header"` -/
  | truncatedHeader
  /-- `"truncated property header"` -/
  | truncatedPropertyHeader
  /-- `f"truncated property {name!r}"` -/
  | truncatedProperty (name : Text)
  /-- `"property name is not NUL-terminated"` -/
  | nameNotTerminated
  /-- `"property name is not ASCII"` -/
  | nameNotAscii
  /-- `f"{len(data) - offset} trailing bytes after root node"` -/
  | trailingBytes (n : ℕ)
  /-- `"node has no name property"` -/
  | noName
  /-- `f"property {property_name!r} is truncated"` -/
  | propertyTruncated (name : Text)
  /-- `f"property {property_name!r} has invalid encoded length"` -/
  | propertyLength (name : Text)
  /-- `f"property {property_name!r} is not a C string"` -/
  | propertyNotString (name : Text)
  /-- `f"property {property_name!r} is not UTF-8"` -/
  | propertyNotUtf8 (name : Text)
  /-- `f"non-ASCII property name {name!r}"` -/
  | newNameNotAscii (name : Text)
  /-- `f"property name too long: {name!r}"` -/
  | newNameTooLong (name : Text)
  /-- `f"expected exactly one root child named {ARM_IO_NAME!r}, found {len(matches)}"` -/
  | armIoCount (n : ℕ)
  /-- `f"existing properties changed at {path}"` -/
  | propertiesChanged (path : Text)
  /-- `f"existing children changed at {path}"` -/
  | childrenChanged (path : Text)
  /-- `f"provider leaf missing at {path}"` -/
  | leafMissing (path : Text)
  /-- `"provider leaf has children"` -/
  | leafHasChildren
  /-- `"provider leaf has properties beyond name and device_type"` -/
  | leafProperties
  /-- `"provider leaf has a hardware property"` -/
  | leafHardware
  /-- `"provider device_type changed"` -/
  | leafDeviceType
  /-- `f"existing child count changed at {path}"` -/
  | childCountChanged (path : Text)
  /-- `f"child order changed at {path}"` -/
  | childOrder (path : Text)
  /-- `"generated tree did not trigger idempotence conflict"` -/
  | noConflict
  /-- `"encoded output did not round-trip byte-for-byte"` -/
  | roundTrip
  deriving DecidableEq

/-- What the tool raises. -/
inductive Error
  | dtError (message : Message)
  | providerConflict
  /-- `RecursionError` of the interpreter -/
  | recursion
  /-- `struct.error` -/
  | struct
  deriving DecidableEq

/-- Is it a `DTError`, of which `ProviderConflict` is a subclass? -/
def Error.IsDTError : Error → Prop
  | .dtError _ | .providerConflict => True
  | .recursion | .struct => False

/-- Nothing but a `DTError` is raised. -/
def RaisesDTError {α : Type} (r : Except Error α) : Prop := ∀ e, r = .error e → e.IsDTError

/-! ## Parsing -/

/-- `decode_name` -/
def decodeName (field : Bytes) : Except Error Text :=
  if 0 ∉ field then .error (.dtError .nameNotTerminated)
  else if (cText field).all (· < 128) then .ok ((cText field).map fun b => Char.ofNat b.toNat)
  else .error (.dtError .nameNotAscii)

/-- `decode_string_property` -/
def decodeStringProperty (raw : Bytes) (propertyName : Text) : Except Error Text :=
  match unpackWord raw 32 with
  | none => .error (.dtError (.propertyTruncated propertyName))
  | some word =>
    let length := word &&& 0x7FFFFFFF
    if raw.length ≠ 36 + roundUp4 length then .error (.dtError (.propertyLength propertyName))
    else
      let value := slice raw 36 (36 + length)
      if value.getLast? ≠ some 0 then .error (.dtError (.propertyNotString propertyName))
      else
        match utf8Decode value.dropLast with
        | some t => .ok t
        | none => .error (.dtError (.propertyNotUtf8 propertyName))

/-- `Node.get_property` -/
def getProperty (n : Node) (name : Text) : Option Property := n.items.find? (·.name = name)

/-- `Node.name` -/
def name (n : Node) : Except Error Text :=
  match getProperty n "name".toList with
  | none => .error (.dtError .noName)
  | some prop => decodeStringProperty prop.raw "name".toList

/-- The counts in `parse_node`. -/
def parseCounts (data : Bytes) (offset : ℕ) : Except Error ((ℕ × ℕ) × ℕ) :=
  match unpackCounts data offset with
  | some nm => .ok (nm, offset + 8)
  | none => .error (.dtError .truncatedHeader)

/-- One turn of the loop over the properties in `parse_node`. -/
def parseProperty (data : Bytes) (offset : ℕ) : Except Error (Property × ℕ) :=
  match unpackWord data (offset + 32) with
  | none => .error (.dtError .truncatedPropertyHeader)
  | some word => do
    let name ← decodeName (slice data offset (offset + 32))
    let stop := offset + 36 + roundUp4 (word &&& 0x7FFFFFFF)
    if stop > data.length then .error (.dtError (.truncatedProperty name))
    else .ok (⟨name, slice data offset stop⟩, stop)

/-- `parse_node` -/
def parseNode (limit : ℕ) (data : Bytes) (offset : ℕ) : Except Error (Node × ℕ) :=
  readTree .recursion (parseCounts data) (parseProperty data) limit offset

/-- `encode_node` -/
def encodeNode (n : Node) : Except Error Bytes := writeTree .struct (fun p => .ok p.raw) n

/-! ## The provider -/

/-- A node with one more child. -/
def appendChild (leaf n : Node) : Node := .node n.items (n.children ++ [leaf])

/-- The part of `compare` for `arm-io`. -/
def compareArmIo (before after : Node) (path : Text) : Except Error Unit := do
  if after.children.dropLast ≠ before.children then .error (.dtError (.childrenChanged path)) else
  let some leaf := after.children.getLast? | .error (.dtError (.leafMissing path))
  if (← name leaf) ≠ providerName then .error (.dtError (.leafMissing path)) else
  if leaf.children.length ≠ 0 then .error (.dtError .leafHasChildren) else
  if leaf.items.map Property.name ≠ ["name".toList, "device_type".toList] then
    .error (.dtError .leafProperties) else
  if ["compatible".toList, "reg".toList, "interrupts".toList].any
      fun s => (getProperty leaf s).isSome then .error (.dtError .leafHardware) else
  let some deviceType := getProperty leaf "device_type".toList | .error (.dtError .leafProperties)
  if (← decodeStringProperty deviceType.raw "device_type".toList) ≠ providerName then
    .error (.dtError .leafDeviceType) else .ok ()

mutual
/-- `compare`. The node is `arm-io` if its address in the tree before is that of `arm-io`. -/
def compare (armIo address : List ℕ) (path : Text) : Node → Node → Except Error Unit
  | .node ps cs, after =>
    if ps ≠ after.items then .error (.dtError (.propertiesChanged path))
    else if address = armIo then compareArmIo (.node ps cs) after path
    else if cs.length ≠ after.children.length then .error (.dtError (.childCountChanged path))
    else compareChildren armIo address path 0 cs after.children

/-- The loop over the children in `compare`, from the child of index `k` on. -/
def compareChildren (armIo address : List ℕ) (path : Text) (k : ℕ) :
    List Node → List Node → Except Error Unit
  | before :: befores, after :: afters => do
    let beforeName ← name before
    if beforeName ≠ (← name after) then .error (.dtError (.childOrder path)) else
    compare armIo (address ++ [k]) (path ++ '/' :: beforeName) before after
    compareChildren armIo address path (k + 1) befores afters
  | _, _ => .ok ()
end

end DarwinVm.Dt.Passthrough
