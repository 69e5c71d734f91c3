import PageLint.Diagnostic.Printer
import PageLint.Digest.ContentHash
import PageLint.Feature.Resolution
import PageLint.Json.Codec
/-!
# The records of an analysis as JSON
-/

namespace PageLint

open Json

instance : JsonCodec Path := ⟨fun p => .text p.text, fun j => j.text?.map Path.mk⟩

instance : JsonCodec Position where
  encode p := .record [("line", encode p.line), ("column", encode p.column)]
  decode j := do
    let [line, column] ← j.fields? ["line", "column"] | none
    pure ⟨← needed line, ← needed column⟩

instance : JsonCodec Offset where
  encode o := .record [("line", encode o.line), ("column", encode o.column)]
  decode j := do
    let [line, column] ← j.fields? ["line", "column"] | none
    pure ⟨← needed line, ← needed column⟩

instance : JsonCodec SourceRange where
  encode r := .record [("file", encode r.file), ("start", encode r.start), ("end", encode r.stop)]
  decode j := do
    let [file, start, stop] ← j.fields? ["file", "start", "end"] | none
    pure ⟨← needed file, ← needed start, ← needed stop⟩

instance : JsonCodec Severity := ⟨fun s => .text s.name, fun j => j.text?.bind Severity.ofName?⟩

instance : JsonCodec Warning where
  encode w := .record [("code", encode w.code), ("message", encode w.message),
    ("severity", encode w.severity), ("source_range", ofOption w.range)]
  decode j := do
    let [code, message, severity, range] ←
      j.fields? ["code", "message", "severity", "source_range"] | none
    pure ⟨← needed code, ← needed message, ← needed severity, ← omissible range⟩

instance : JsonCodec Verbosity :=
  ⟨fun v => .text v.name, fun j => j.variant?.bind Verbosity.ofName?⟩

instance : JsonCodec FeatureKind := ⟨fun k => .text k.name, fun j => j.text?.map FeatureKind.ofName⟩

instance : JsonCodec Language := ⟨fun l => .text l.name, fun j => j.variant?.bind Language.ofName?⟩

instance : JsonCodec ResolutionMode :=
  ⟨fun m => .text m.name, fun j => j.variant?.bind ResolutionMode.ofName?⟩

instance : JsonCodec DocumentId := ⟨fun id => encode id.index, fun j => (decode j).map DocumentId.mk⟩

instance : JsonCodec NodeId := ⟨fun id => encode id.index, fun j => (decode j).map NodeId.mk⟩

instance : JsonCodec Param where
  encode p := .record [("name", encode p.name), ("type", ofOption p.type)]
  decode j := do
    let [name, type] ← j.fields? ["name", "type"] | none
    pure ⟨← needed name, ← omissible type⟩

instance : JsonCodec ReturnInfo where
  encode r := .record [("type", ofOption r.type), ("desc", encode r.description)]
  decode j := do
    let [type, description] ← j.fields? ["type", "desc"] | none
    pure ⟨← omissible type, ← needed description⟩

instance : JsonCodec Markup.Attribute where
  encode a := .record [("name", encode a.name), ("value", ofOption a.value),
    ("range", encode a.range)]
  decode j := do
    let [name, value, range] ← j.fields? ["name", "value", "range"] | none
    pure ⟨← needed name, ← omissible value, ← needed range⟩

instance : JsonCodec Markup.Node where
  encode n := .record [("kind", encode n.kind), ("range", encode n.range),
    ("attributes", encode n.attributes), ("text_range", ofOption n.textRange),
    ("text", ofOption n.text), ("parent", ofOption n.parent)]
  decode j := do
    let [kind, range, attributes, textRange, text, parent] ←
      j.fields? ["kind", "range", "attributes", "text_range", "text", "parent"] | none
    pure ⟨← needed kind, ← needed range, ← needed attributes, ← omissible textRange,
      ← omissible text, ← omissible parent⟩

instance {ι α : Type} [JsonCodec α] : JsonCodec (Arena ι α) where
  encode a := .record [("items", encode a.items.toList)]
  decode j := do
    let [items] ← j.fields? ["items"] | none
    pure ⟨List.toArray (← needed items)⟩

instance : JsonCodec Markup.Tree where
  encode t := .record [("nodes", encode t.nodes)]
  decode j := do
    let [nodes] ← j.fields? ["nodes"] | none
    pure ⟨← needed nodes⟩

instance : JsonCodec UInt8 where
  encode b := .natural b.toNat
  decode
    | .natural n => if n < UInt8.size then some (UInt8.ofNat n) else none
    | _ => none

instance : JsonCodec ContentHash where
  encode hash := encode hash.bytes.toList
  decode j := do
    let bytes : List UInt8 ← decode j
    if h : bytes.toArray.size = 16 then pure ⟨⟨bytes.toArray, h⟩⟩ else none

end PageLint
