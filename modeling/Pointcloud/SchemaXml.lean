/-
Pointcloud.SchemaXml — schemas read from XML (`pc_schema.c`).

The parser of the XML is a library; what it makes of a text is a tree of
nodes, any tree, or nothing. An element has the namespace its name is in. The
children of a `dimension` element are read one after the other, and a later
one takes the place of an earlier one of the same name; of each only the first
child is looked at, whose content is the null pointer if it is an element.

A schema is under construction here: its dimensions may still be missing, of
an unknown type and without a name. `PcSchema` is what the rest of the library
takes it for.
-/
import Pointcloud.Base.Numeral
import Pointcloud.Base.Word
import Pointcloud.Schema

namespace Pointcloud

open Pointcloud.Base

/-! ## Documents -/

/-- A node of a document. Nodes that are neither elements nor text may have content
too. -/
inductive XmlNode where
  | element (ns : Option String) (name : String) (attributes : List (String × String))
      (children : List XmlNode)
  | text (content : String)
  | other (content : Option String)

/-- `node->content`. -/
def XmlNode.content : XmlNode → Option String
  | .element _ _ _ _ => none
  | .text content => some content
  | .other content => content

/-- `xml_node_get_content`: the first text among the children. -/
def xmlNodeGetContent : List XmlNode → String
  | [] => ""
  | .text content :: _ => content
  | _ :: children => xmlNodeGetContent children

/-- The children that are elements of a name in a namespace. -/
def childElements (ns : Option String) (name : String) :
    List XmlNode → List (List (String × String) × List XmlNode)
  | [] => []
  | .element ns' name' attributes children :: nodes =>
      if ns' = ns ∧ name' = name then (attributes, children) :: childElements ns name nodes
      else childElements ns name nodes
  | _ :: nodes => childElements ns name nodes

/-- The root element, if it is `pc:PointCloudSchema`: its children. -/
def schemaChildren (name : String) (children : List XmlNode) : List XmlNode :=
  if name = "PointCloudSchema" then children else []

/-- `/pc:PointCloudSchema/pc:dimension`: the children of each. -/
def dimensionElements (ns : Option String) (name : String) (children : List XmlNode) :
    List (List XmlNode) :=
  (childElements ns "dimension" (schemaChildren name children)).map Prod.snd

/-- `/pc:PointCloudSchema/pc:metadata/Metadata`: the attributes and children of each. -/
def metadataElements (ns : Option String) (name : String) (children : List XmlNode) :
    List (List (String × String) × List XmlNode) :=
  (childElements ns "metadata" (schemaChildren name children)).flatMap fun m =>
    childElements none "Metadata" m.2

/-- What an expression evaluates to. Node sets of more than ten million nodes cannot be
made. -/
def nodeSet {α : Type} (nodes : List α) : Option (List α) :=
  if nodes.length ≤ 10000000 then some nodes else none

/-! ## Dimensions -/

/-- `PCDIMENSION` under construction. Scale and offset are the words of doubles. -/
structure XmlDimension where
  name : Option String
  description : Option String
  position : Nat
  size : Nat
  byteoffset : Nat
  interpretation : Interpretation
  scale : Nat
  offset : Nat
  active : Nat
  deriving DecidableEq

/-- `pc_dimension_new`. The scale is 1. -/
def pcDimensionNew : XmlDimension := ⟨none, none, 0, 0, 0, .unknown, 0x3ff0000000000000, 0, 0⟩

/-- Byte `i` of a C string and the null byte at its end; nothing lies behind it. -/
def byteAt (s : String) (i : Nat) : Run UInt8 :=
  if i < (cBytes s).length then .ok ((cBytes s).getD i 0)
  else if i = (cBytes s).length then .ok 0
  else fault

/-- The types of a signed or unsigned integer, by the first digit of the width. -/
def integerOf (digit : UInt8) (of8 of16 of32 of64 : Interpretation) : Interpretation :=
  if digit = 56 then of8
  else if digit = 49 then of16
  else if digit = 51 then of32
  else if digit = 54 then of64
  else .unknown

/-- `pc_interpretation_number`. -/
def pcInterpretationNumber (str : String) : Run Interpretation := do
  let first ← byteAt str 0
  if first = 105 ∨ first = 73 then
    let digit ← byteAt str 3
    return integerOf digit .int8 .int16 .int32 .int64
  else if first = 117 ∨ first = 85 then
    let digit ← byteAt str 4
    return integerOf digit .uint8 .uint16 .uint32 .uint64
  else if first = 100 ∨ first = 68 then return .double
  else if first = 102 ∨ first = 70 then return .float
  else return .unknown

/-- What is read into a dimension: the child elements that have a child themselves,
with the content of their first one. -/
def entries : List XmlNode → List (String × Option String)
  | [] => []
  | .element _ name _ (child :: _) :: nodes => (name, child.content) :: entries nodes
  | _ :: nodes => entries nodes

/-- A string that is read; the null pointer is not one. -/
def pointee : Option String → Run String
  | some content => .ok content
  | none => fault

/-- A value of a dimension. -/
def readEntry (d : XmlDimension) (entry : String × Option String) : Run XmlDimension :=
  match entry.1 with
  | "name" => do
      let content ← pointee entry.2
      return { d with name := some content }
  | "description" => do
      let content ← pointee entry.2
      return { d with description := some content }
  | "size" => do
      -- read, and not used any more
      let _ ← pointee entry.2
      return d
  | "active" => do
      let content ← pointee entry.2
      return { d with active := (atoi content % 256).toNat }
  | "position" => do
      let content ← pointee entry.2
      return { d with position := ((atoi content - 1) % 4294967296).toNat }
  | "interpretation" => do
      let content ← pointee entry.2
      let interpretation ← pcInterpretationNumber content
      return { d with interpretation := interpretation }
  | "scale" => do
      let content ← pointee entry.2
      return { d with scale := atof content }
  | "offset" => do
      let content ← pointee entry.2
      return { d with offset := atof content }
  | _ => .ok d

/-- A dimension element. -/
def readDimension (children : List XmlNode) : Run XmlDimension :=
  (entries children).foldlM readEntry pcDimensionNew

/-! ## Schemas -/

/-- `PCSCHEMA` under construction. -/
structure XmlSchema where
  pcid : Nat
  srid : Nat
  dims : List (Option XmlDimension)
  size : Nat
  xdim : Option Nat
  ydim : Option Nat
  zdim : Option Nat
  mdim : Option Nat
  compression : PcCompression
  namehash : List (String × Nat)
  deriving DecidableEq

/-- `pc_schema_new`. -/
def pcSchemaNew (ndims : Nat) : XmlSchema :=
  ⟨0, 0, List.replicate ndims none, 0, none, none, none, none, .none, []⟩

/-- `pc_schema_calculate_byteoffsets`, from an offset on. The offset is counted as a
`size_t`, and stored in 32 bits. -/
def calculateByteoffsets : Nat → List (Option XmlDimension) → List (Option XmlDimension) × Nat
  | byteoffset, [] => ([], byteoffset)
  | byteoffset, none :: dims =>
      let (dims, total) := calculateByteoffsets byteoffset dims
      (none :: dims, total)
  | byteoffset, some d :: dims =>
      let size := uint32 d.interpretation.size
      let (dims, total) := calculateByteoffsets ((byteoffset + size) % 18446744073709551616) dims
      (some { d with byteoffset := uint32 byteoffset, size := size } :: dims, total)

def pcSchemaCalculateByteoffsets (s : XmlSchema) : XmlSchema :=
  { s with dims := (calculateByteoffsets 0 s.dims).1, size := (calculateByteoffsets 0 s.dims).2 }

/-- `pc_schema_set_dimension`, without the byte offsets, which are computed anew when all
dimensions are there. -/
def pcSchemaSetDimension (s : XmlSchema) (d : XmlDimension) : XmlSchema where
  pcid := s.pcid
  srid := s.srid
  dims := s.dims.set d.position (some d)
  size := s.size
  xdim := s.xdim
  ydim := s.ydim
  zdim := s.zdim
  mdim := s.mdim
  compression := s.compression
  namehash :=
    match d.name with
    | some name => enter nameLimits s.namehash (name, d.position)
    | none => s.namehash

/-- `pc_schema_set_dimension`, with the byte offsets. A place that the schema does not
have lies outside of its array, and the dimensions are counted with an `int`. -/
def pcSchemaSetDimensionLaidOut (s : XmlSchema) (d : XmlDimension) : Run XmlSchema :=
  if d.position < s.dims.length then do
    intLoop s.dims.length
    return pcSchemaCalculateByteoffsets (pcSchemaSetDimension s d)
  else fault

/-- The dimension elements, in order; nothing if one is out of place. -/
def addDimensions : List (List XmlNode) → XmlSchema → Run (Option XmlSchema)
  | [], s => .ok (some s)
  | element :: elements, s => do
      let d ← readDimension element
      match s.dims[d.position]? with
      | none => return none
      | some (some _) => return none
      | some none => addDimensions elements (pcSchemaSetDimension s d)

/-- The names by which `pc_schema_check_xyzm` knows a coordinate. -/
def xNames : List String := ["X", "Longitude", "Lon"]
def yNames : List String := ["Y", "Latitude", "Lat"]
def zNames : List String := ["Z", "H", "Height"]
def mNames : List String := ["M", "T", "Time", "GPSTime"]

/-- One step of `pc_schema_check_xyzm`. -/
def checkName (s : XmlSchema) (i : Nat) (name : String) : XmlSchema :=
  if xNames.any (sameName name) then { s with xdim := some i }
  else if yNames.any (sameName name) then { s with ydim := some i }
  else if zNames.any (sameName name) then { s with zdim := some i }
  else if mNames.any (sameName name) then { s with mdim := some i }
  else s

/-- `pc_schema_check_xyzm`, for the dimensions from the position `i` on. -/
def checkXyzm : Nat → List (Option XmlDimension) → XmlSchema → Run XmlSchema
  | _, [], s => .ok s
  | _, none :: _, _ => fault
  | i, some d :: dims, s =>
      match d.name with
      | none => checkXyzm (i + 1) dims s
      | some name => checkXyzm (i + 1) dims (checkName s i name)

def pcSchemaCheckXyzm (s : XmlSchema) : Run XmlSchema := checkXyzm 0 s.dims s

/-- `pc_compression_number`. -/
def pcCompressionNumber (str : String) : PcCompression :=
  if sameName str "dimensional" then .dimensional
  else if sameName str "laz" then .lazperf
  else .none

/-- A metadata element. The name is the null pointer if there is none. -/
def readMetadata (s : XmlSchema) (element : List (String × String) × List XmlNode) :
    Run XmlSchema :=
  match element.1.lookup "name" with
  | none => fault
  | some "compression" =>
      .ok { s with compression := pcCompressionNumber (xmlNodeGetContent element.2) }
  | some _ => .ok s

/-- A coordinate of a clone: the dimension at the position of that of the schema. -/
def cloneCoordinate (s pcs : XmlSchema) : Option Nat → Run (Option Nat)
  | none => .ok none
  | some i =>
      match s.dims[i]? with
      | some (some d) =>
          match pcs.dims[d.position]? with
          | some (some _) => .ok (some d.position)
          | some none => .ok none
          | none => fault
      | _ => fault

/-- `pc_schema_clone`, also of a schema of which dimensions are missing. A dimension is
copied with all that it has (`pc_dimension_clone`). -/
def pcXmlSchemaClone (s : XmlSchema) : Run XmlSchema := do
  let pcs := { pcSchemaNew s.dims.length with
    pcid := s.pcid, srid := s.srid, compression := s.compression }
  intLoop s.dims.length
  let pcs ← (s.dims.filterMap id).foldlM pcSchemaSetDimensionLaidOut pcs
  let xdim ← cloneCoordinate s pcs s.xdim
  let ydim ← cloneCoordinate s pcs s.ydim
  let zdim ← cloneCoordinate s pcs s.zdim
  let mdim ← cloneCoordinate s pcs s.mdim
  return pcSchemaCalculateByteoffsets
    { pcs with xdim := xdim, ydim := ydim, zdim := zdim, mdim := mdim }

/-- `pc_schema_get_dimension_by_name`, for a schema under construction. -/
def pcXmlSchemaGetDimensionByName (s : XmlSchema) (name : String) : Option XmlDimension :=
  (s.namehash.find? fun e => sameName name e.1).bind fun e => s.dims[e.2]?.join

/-- `pc_schema_is_valid`. -/
def pcSchemaIsValid (s : XmlSchema) : Bool :=
  s.xdim.isSome && s.ydim.isSome && !s.dims.isEmpty && s.dims.all Option.isSome

/-- `pc_schema_from_xml`, for the root element of the document. Without a namespace
the paths cannot be evaluated. -/
def pcSchemaFromXml (root : Option XmlNode) : Run (Option XmlSchema) :=
  match root with
  | some (.element (some ns) name _ children) =>
      match nodeSet (dimensionElements (some ns) name children) with
      | none => .ok none
      | some elements => do
          match ← addDimensions elements (pcSchemaNew elements.length) with
          -- x is not known yet, so the schema is not valid
          | none => return none
          | some s =>
              let s ← pcSchemaCheckXyzm (pcSchemaCalculateByteoffsets s)
              let metadata := nodeSet (metadataElements (some ns) name children)
              let s ← (metadata.getD []).foldlM readMetadata s
              return if pcSchemaIsValid s then some s else none
  | _ => .ok none

/-- What the expressions evaluate to, for a document in which they can be evaluated: the
dimensions and the metadata. -/
def documentParts (root : Option XmlNode) :
    Option (List (List XmlNode) × List (List (String × String) × List XmlNode)) :=
  match root with
  | some (.element (some ns) name _ children) =>
      (nodeSet (dimensionElements (some ns) name children)).map fun elements =>
        (elements, (nodeSet (metadataElements (some ns) name children)).getD [])
  | _ => none

/-- A metadata element if the schema is the null pointer. -/
def readMetadataWithout (element : List (String × String) × List XmlNode) : Run Unit :=
  match element.1.lookup "name" with
  | none => fault
  | some "compression" => fault
  | some _ => .ok ()

/-- `pc_schema_from_xml` if what selects no dimension may evaluate to no node set at all:
then there is no schema, and the metadata is read all the same. -/
def pcSchemaFromXmlOver (nosets : Bool) (root : Option XmlNode) : Run (Option XmlSchema) :=
  match nosets, documentParts root with
  | true, some ([], metadata) => do
      metadata.foldlM (fun _ => readMetadataWithout) ()
      return none
  | _, _ => pcSchemaFromXml root

end Pointcloud
