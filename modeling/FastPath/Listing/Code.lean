import FastPath.Code.Basic
import FastPath.Listing.Inst

/-!
# Listing finished code

The layout of finished code: its instructions, where each bytecode instruction starts,
its stub calls, and its inline caches with what they have learned.
-/

namespace FastPath

/-! ### Inline caches -/

instance : Named CacheKind where
  names := [("GetElem", .get), ("SetElem", .set)]

instance : Named CacheStage where
  names := [("Speculative", .speculative), ("Polymorphic", .polymorphic), ("Megamorphic", .megamorphic)]

instance : Listed StrId := .via StrId.index fun i => some ⟨i⟩

instance : Listed CacheCase where
  listing
    | .typedArray cls => .form "TypedArray" [("class", listing cls)]
    | .namedSlot shape key slot =>
      .form "NamedSlot" [("shape", listing shape), ("key", listing key), ("slot", listing slot)]
  read? l := do
    match ← l.unwrap? with
    | ("TypedArray", c) => return .typedArray (← c.field? "class")
    | ("NamedSlot", c) => return .namedSlot (← c.field? "shape") (← c.field? "key") (← c.field? "slot")
    | _ => none

/-- The listing of what a cache has learned, with its stage. -/
def CacheState.summary (s : CacheState) : Listing := .record
  [("state", listing s.stage), ("stubs", listing s.cases), ("megamorphic", listing s.megamorphic),
   ("version", listing s.version)]

instance : Listed CacheKey where
  listing
    | .constant i => .wrap "Constant" i
    | .reg tag payload knownTag =>
      .form "Reg" [("tag", listing tag), ("payload", listing payload), ("known_tag", listing knownTag)]
  read? l := do
    match ← l.unwrap? with
    | ("Constant", i) => return .constant (← Listed.read? i)
    | ("Reg", k) => return .reg (← k.field? "tag") (← k.field? "payload") (← k.field? "known_tag")
    | _ => none

instance : Listed (CacheLayout Offset) where
  listing c := .record
    [("kind", listing c.kind), ("pc", listing c.pc), ("fast_path_start", listing c.start),
     ("clasp_guard", listing c.classGuard), ("fast_path_rejoin", listing c.rejoin),
     ("slow_path_start", listing c.slowStart), ("obj", listing c.obj), ("key", listing c.key),
     ("value", listing c.value), ("result", listing c.result), ("preserved", listing c.preserved)]
  read? l := do
    return {
      kind := ← l.field? "kind"
      pc := ← l.field? "pc"
      start := ← l.field? "fast_path_start"
      classGuard := ← l.field? "clasp_guard"
      rejoin := ← l.field? "fast_path_rejoin"
      slowStart := ← l.field? "slow_path_start"
      obj := ← l.field? "obj"
      key := ← l.field? "key"
      value := ← l.field? "value"
      result := ← l.field? "result"
      preserved := ← l.field? "preserved" }

/-! ### Code -/

instance : Listed RejoinSite where
  listing s := .record
    [("pc", listing s.pc), ("resume_pc", listing s.resumePc), ("call", listing s.call),
     ("sp", listing s.sp), ("sp_after", listing s.spAfter), ("changes", listing s.changes),
     ("rejoin", listing s.rejoin), ("monitored_types", listing s.monitored)]
  read? l := do
    return {
      pc := ← l.field? "pc"
      resumePc := ← l.field? "resume_pc"
      call := ← l.field? "call"
      sp := ← l.field? "sp"
      spAfter := ← l.field? "sp_after"
      changes := ← l.field? "changes"
      rejoin := ← l.field? "rejoin"
      monitored := ← l.field? "monitored_types" }

/-- The layout of finished code. -/
def Code.layout (c : Code) : Listing := .record
  [("name", listing c.name), ("fast_len", listing c.fastLength), ("slow_len", listing c.slowLength),
   ("pc_offsets", listing c.pcOffsets), ("rejoin_sites", listing c.sites), ("ics", listing c.caches),
   ("insts", listing c.insts)]

end FastPath
