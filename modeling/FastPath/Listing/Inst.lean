import FastPath.Listing.Basic
import FastPath.Target.Buffer

/-!
# Listing instructions

Machine instructions, their operands and the streams they are emitted into. Registers and
slots are listed by their numbers, conditions and operations by their names.
-/

namespace FastPath

/-! ### Names -/

instance : Named Tag where
  names := ["Double", "Int32", "Undefined", "Boolean", "Magic", "String", "Null", "Object"].zip Tag.all

instance : Named ObjectClass where
  names := [.plain, .array, .int32Array, .float64Array].map fun c => (c.name, c)

instance : Named Extent where
  names := [.initializedLength, .capacity, .length].map fun e => (e.name, e)

instance : Named ArithOp where
  names := [("Add", .add), ("Sub", .sub)]

instance : Named AluOp where
  names := [("Add", .arith .add), ("Sub", .arith .sub), ("And", .bit .and), ("Or", .bit .or),
    ("Xor", .bit .xor), ("Shl", .bit .lsh), ("Sar", .bit .rsh), ("Shr", .bit .ursh)]

instance : Named Cond where
  names := Cond.all.map fun c => (c.name, c)

instance : Named DoubleRel where
  names := [("Equal", .equal), ("NotEqual", .notEqual), ("LessThan", .order .lt),
    ("LessThanOrEqual", .order .le), ("GreaterThan", .order .gt), ("GreaterThanOrEqual", .order .ge)]

instance : Named DoubleCond where
  names := Named.names.map (fun (n, rel) => (n, ⟨rel, false⟩)) ++
    Named.names.map fun (n, rel) => (n ++ "OrUnordered", ⟨rel, true⟩)

instance : Named Stub where
  names := ["BitOr", "BitAnd", "BitXor", "Lsh", "Rsh", "Ursh", "BitNot", "Add", "Sub", "Pos", "Not",
    "ValueToBoolean", "TypeOf", "Eq", "Ne", "StrictEq", "StrictNe", "Lt", "Le", "Gt", "Ge",
    "GetElem", "SetElem", "NewInit", "NewObject", "NewArray", "InitProp", "InitMethod",
    "InitElem"].zip Stub.all

instance : Named Stream where
  names := [("Fast", .fast), ("Slow", .slow)]

/-! ### Operands -/

instance : Listed Reg := .via Reg.index fun i => some ⟨i⟩
instance : Listed FReg := .via FReg.index fun i => some ⟨i⟩
instance : Listed RegMask := .via RegMask.bits fun b => some ⟨b⟩

instance : Listed Operand where
  listing
    | .reg r => .wrap "Reg" r
    | .imm n => .wrap "Imm" n
    | .tag s => .wrap "Tag" s
    | .payload s => .wrap "Payload" s
  read? l := do
    match ← l.unwrap? with
    | ("Reg", r) => return .reg (← Listed.read? r)
    | ("Imm", n) => return .imm (← Listed.read? n)
    | ("Tag", s) => return .tag (← Listed.read? s)
    | ("Payload", s) => return .payload (← Listed.read? s)
    | _ => none

/-- The payload of a number is listed as the number, any other as a word. -/
instance : Listed Cell where
  listing c := .record [("tag", listing c.tag), ("payload",
    if c.tag = Tag.double.word then listing (Double.mk c.payload) else listing c.payload)]
  read? l := do
    let tag : UInt64 ← l.field? "tag"
    if tag = Tag.double.word then return ⟨tag, (← l.field? "payload" : Double).bits⟩
    else return ⟨tag, ← l.field? "payload"⟩

instance : Listed Source where
  listing
    | .constant c => .wrap "Constant" c
    | .typed t p => .form "Typed" [("tag", listing t), ("payload", listing p)]
    | .regs t p => .form "Regs" [("tag", listing t), ("payload", listing p)]
    | .double r => .wrap "Double" r
  read? l := do
    match ← l.unwrap? with
    | ("Constant", c) => return .constant (← Listed.read? c)
    | ("Typed", s) => return .typed (← s.field? "tag") (← s.field? "payload")
    | ("Regs", s) => return .regs (← s.field? "tag") (← s.field? "payload")
    | ("Double", r) => return .double (← Listed.read? r)
    | _ => none

instance : Listed IndexKey where
  listing
    | .constant i => .wrap "Constant" i
    | .reg r => .wrap "Reg" r
  read? l := do
    match ← l.unwrap? with
    | ("Constant", i) => return .constant (← Listed.read? i)
    | ("Reg", r) => return .reg (← Listed.read? r)
    | _ => none

/-! ### Instructions -/

/-- The name and the fields of a guard, without its target. -/
def Guard.fields : Guard → String × List (String × Listing)
  | always => ("Jump", [])
  | compare cond lhs rhs =>
    ("Branch32", [("cond", listing cond), ("lhs", listing lhs), ("rhs", listing rhs)])
  | test nonZero lhs mask =>
    ("BranchTest32", [("cond", .text (if nonZero then "NonZero" else "Zero")),
      ("lhs", listing lhs), ("mask", listing mask)])
  | compareDouble cond lhs rhs =>
    ("BranchDouble", [("cond", listing cond), ("lhs", listing lhs), ("rhs", listing rhs)])
  | checked op dst src =>
    ("BranchAlu32", [("op", listing op), ("dst", listing dst), ("src", listing src)])
  | truncate src dst =>
    ("BranchTruncateDoubleToInt32", [("src", listing src), ("dst", listing dst)])
  | convert src dst =>
    ("BranchConvertDoubleToInt32", [("src", listing src), ("dst", listing dst)])
  | objectClass cond obj cls =>
    ("BranchObjClass", [("cond", listing cond), ("obj", listing obj), ("class", listing cls)])
  | extent word obj key cond =>
    ("BranchArrayExtent", [("field", listing word), ("obj", listing obj), ("key", listing key),
      ("cond", listing cond)])
  | hole obj key => ("BranchElementHole", [("obj", listing obj), ("key", listing key)])
  | loadPacked obj key tag payload =>
    ("LoadPackedElement", [("obj", listing obj), ("key", listing key), ("tag", listing tag),
      ("payload", listing payload)])
  | epoch expected => ("BranchPrototypeEpoch", [("expected", listing expected)])

/-- Read a guard of a given name. -/
def Guard.ofFields? (name : String) (l : Listing) : Option Guard := do
  match name with
  | "Jump" => return always
  | "Branch32" => return compare (← l.field? "cond") (← l.field? "lhs") (← l.field? "rhs")
  | "BranchTest32" =>
    let cond : String ← l.field? "cond"
    return test (cond = "NonZero") (← l.field? "lhs") (← l.field? "mask")
  | "BranchDouble" => return compareDouble (← l.field? "cond") (← l.field? "lhs") (← l.field? "rhs")
  | "BranchAlu32" => return checked (← l.field? "op") (← l.field? "dst") (← l.field? "src")
  | "BranchTruncateDoubleToInt32" => return truncate (← l.field? "src") (← l.field? "dst")
  | "BranchConvertDoubleToInt32" => return convert (← l.field? "src") (← l.field? "dst")
  | "BranchObjClass" => return objectClass (← l.field? "cond") (← l.field? "obj") (← l.field? "class")
  | "BranchArrayExtent" =>
    return extent (← l.field? "field") (← l.field? "obj") (← l.field? "key") (← l.field? "cond")
  | "BranchElementHole" => return hole (← l.field? "obj") (← l.field? "key")
  | "LoadPackedElement" =>
    return loadPacked (← l.field? "obj") (← l.field? "key") (← l.field? "tag") (← l.field? "payload")
  | "BranchPrototypeEpoch" => return epoch (← l.field? "expected")
  | _ => none

namespace Inst

/-- The name and the fields of an instruction. -/
def fields : Inst → String × List (String × Listing)
  | move dst src => ("Move", [("dst", listing dst), ("src", listing src)])
  | storeTag slot src => ("StoreTag", [("slot", listing slot), ("src", listing src)])
  | storePayload slot src => ("StorePayload", [("slot", listing slot), ("src", listing src)])
  | storeValue slot src => ("StoreValue", [("slot", listing slot), ("src", listing src)])
  | copySlot dst src => ("CopySlot", [("dst", listing dst), ("src", listing src)])
  | loadDouble dst slot => ("LoadDouble", [("dst", listing dst), ("slot", listing slot)])
  | moveDoubleImm dst value => ("MoveDoubleImm", [("dst", listing dst), ("value", listing value)])
  | moveDouble dst src => ("MoveDouble", [("dst", listing dst), ("src", listing src)])
  | moveBitsToDouble dst src => ("MoveBitsToDouble", [("dst", listing dst), ("src", listing src)])
  | int32ToDouble dst src => ("ConvertInt32ToDouble", [("dst", listing dst), ("src", listing src)])
  | uint32ToDouble dst src => ("ConvertUint32ToDouble", [("dst", listing dst), ("src", listing src)])
  | aluDouble op dst src =>
    ("AluDouble", [("op", listing op), ("dst", listing dst), ("src", listing src)])
  | zeroDouble dst => ("ZeroDouble", [("dst", listing dst)])
  | alu op dst src => ("Alu32", [("op", listing op), ("dst", listing dst), ("src", listing src)])
  | bitNot dst => ("Not32", [("dst", listing dst)])
  | set cond lhs rhs dst =>
    ("Set32", [("cond", listing cond), ("lhs", listing lhs), ("rhs", listing rhs), ("dst", listing dst)])
  | setDouble cond lhs rhs dst =>
    ("SetDouble", [("cond", listing cond), ("lhs", listing lhs), ("rhs", listing rhs),
      ("dst", listing dst)])
  | loadExtent dst obj extent =>
    ("LoadObjField", [("dst", listing dst), ("obj", listing obj), ("field", listing extent)])
  | storeExtent obj extent src =>
    ("StoreObjField", [("obj", listing obj), ("field", listing extent), ("src", listing src)])
  | loadElement obj key tag payload =>
    ("LoadElement", [("obj", listing obj), ("key", listing key), ("tag", listing tag),
      ("payload", listing payload)])
  | storeElement obj key value =>
    ("StoreElement", [("obj", listing obj), ("key", listing key), ("value", listing value)])
  | loadNamed obj slot tag payload =>
    ("LoadNamedSlot", [("obj", listing obj), ("slot", listing slot), ("tag", listing tag),
      ("payload", listing payload)])
  | storeNamed obj slot value =>
    ("StoreNamedSlot", [("obj", listing obj), ("slot", listing slot), ("value", listing value)])
  | callStub stub sp arg => ("CallStub", [("stub", listing stub), ("sp", listing sp), ("arg", listing arg)])
  | callCache cache sp preserve =>
    ("CallIcStub", [("ic", listing cache), ("sp", listing sp), ("preserve", listing preserve)])
  | branch guard target =>
    let (name, fields) := guard.fields
    (name, fields ++ [("target", listing target)])
  | ret value => ("Return", [("value", listing value)])

/-- Read an instruction of a given name; every other name is that of a guard. -/
def ofFields? (name : String) (l : Listing) : Option Inst := do
  match name with
  | "Move" => return move (← l.field? "dst") (← l.field? "src")
  | "StoreTag" => return storeTag (← l.field? "slot") (← l.field? "src")
  | "StorePayload" => return storePayload (← l.field? "slot") (← l.field? "src")
  | "StoreValue" => return storeValue (← l.field? "slot") (← l.field? "src")
  | "CopySlot" => return copySlot (← l.field? "dst") (← l.field? "src")
  | "LoadDouble" => return loadDouble (← l.field? "dst") (← l.field? "slot")
  | "MoveDoubleImm" => return moveDoubleImm (← l.field? "dst") (← l.field? "value")
  | "MoveDouble" => return moveDouble (← l.field? "dst") (← l.field? "src")
  | "MoveBitsToDouble" => return moveBitsToDouble (← l.field? "dst") (← l.field? "src")
  | "ConvertInt32ToDouble" => return int32ToDouble (← l.field? "dst") (← l.field? "src")
  | "ConvertUint32ToDouble" => return uint32ToDouble (← l.field? "dst") (← l.field? "src")
  | "AluDouble" => return aluDouble (← l.field? "op") (← l.field? "dst") (← l.field? "src")
  | "ZeroDouble" => return zeroDouble (← l.field? "dst")
  | "Alu32" => return alu (← l.field? "op") (← l.field? "dst") (← l.field? "src")
  | "Not32" => return bitNot (← l.field? "dst")
  | "Set32" =>
    return set (← l.field? "cond") (← l.field? "lhs") (← l.field? "rhs") (← l.field? "dst")
  | "SetDouble" =>
    return setDouble (← l.field? "cond") (← l.field? "lhs") (← l.field? "rhs") (← l.field? "dst")
  | "LoadObjField" => return loadExtent (← l.field? "dst") (← l.field? "obj") (← l.field? "field")
  | "StoreObjField" => return storeExtent (← l.field? "obj") (← l.field? "field") (← l.field? "src")
  | "LoadElement" =>
    return loadElement (← l.field? "obj") (← l.field? "key") (← l.field? "tag") (← l.field? "payload")
  | "StoreElement" => return storeElement (← l.field? "obj") (← l.field? "key") (← l.field? "value")
  | "LoadNamedSlot" =>
    return loadNamed (← l.field? "obj") (← l.field? "slot") (← l.field? "tag") (← l.field? "payload")
  | "StoreNamedSlot" => return storeNamed (← l.field? "obj") (← l.field? "slot") (← l.field? "value")
  | "CallStub" => return callStub (← l.field? "stub") (← l.field? "sp") (← l.field? "arg")
  | "CallIcStub" => return callCache (← l.field? "ic") (← l.field? "sp") (← l.field? "preserve")
  | "Return" => return ret (← l.field? "value")
  | _ => return branch (← Guard.ofFields? name l) (← l.field? "target")

end Inst

instance : Listed Inst where
  listing i := .form i.fields.1 i.fields.2
  read? l := do
    let (name, fields) ← l.unwrap?
    Inst.ofFields? name fields

/-! ### Streams -/

instance : Listed Label where
  listing l := .record [("stream", listing l.stream), ("offset", listing l.offset)]
  read? l := do return ⟨← l.field? "stream", ← l.field? "offset"⟩

/-- A branch that waits for its target is listed by its index in its stream. -/
instance : Listed Link where
  listing l := .list
    [.record [("stream", listing l.jump.stream), ("index", listing l.jump.offset)],
     match l.target with
     | .label t => listing t
     | .pc n => listing n]
  read? l := do
    let jump : Listing ← l.item? 0
    let jump : Jump := ⟨← jump.field? "stream", ← jump.field? "index"⟩
    return ⟨jump, ← (l.item? 1).map LinkTarget.pc <|> (l.item? 1).map LinkTarget.label⟩

end FastPath
