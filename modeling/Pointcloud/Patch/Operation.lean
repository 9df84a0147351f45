/-
Pointcloud.Patch.Operation — the functions that make patches, and runs of them.

An operation is a function together with what it is given; it makes a patch,
or none. A run begins with the functions that take no patch and goes on with
patches that were made before, in any order and any number of times.
-/
import Pointcloud.Base.Derivation
import Pointcloud.Patch.Compress
import Pointcloud.Patch.Edit
import Pointcloud.Patch.Filter
import Pointcloud.Patch.Sort
import Pointcloud.Patch.Wkb

namespace Pointcloud

open Pointcloud.Base

/-- A function that makes a patch, with what it is given. -/
inductive Operation where
  | fromPointlist (pl : PcPointlist)
  | fromWkb (s : PcSchema) (wkb : Bytes)
  | compress (pa : PcPatch) (userdata : Option PcDimStats)
  | uncompress (pa : PcPatch)
  | filter (pa : PcPatch) (dimnum : Nat) (condition : PcFiltertype) (val1 val2 : ℚ)
  | range (pa : PcPatch) (first count : Int)
  | sort (pa : PcPatch) (names : List String)
  | fromPatchlist (palist : List PcPatch)
  | setSchema (pa : PcPatch) (s : PcSchema) (dflt : ℚ)
  | transform (pa : PcPatch) (s : PcSchema) (dflt : ℚ)

/-- The patches that it is given. -/
def Operation.inputs : Operation → List PcPatch
  | .fromPointlist _ | .fromWkb _ _ => []
  | .compress pa _ | .uncompress pa | .filter pa _ _ _ _ | .range pa _ _ | .sort pa _ => [pa]
  | .setSchema pa _ _ | .transform pa _ _ => [pa]
  | .fromPatchlist palist => palist

/-- The patch that it makes; the null pointer for none. The size that is passed with
WKB is its length. -/
def Operation.run (P : Platform) (S : SortR) : Operation → Run (Option PcPatch)
  | .fromPointlist pl => do
      let p ← pcPatchUncompressedFromPointlist P pl
      return some (.uncompressed p)
  | .fromWkb s wkb => do
      let pa ← pcPatchFromWkb P s wkb wkb.length
      return some pa
  | .compress pa userdata => do
      let (pa, _) ← pcPatchCompress P pa userdata
      return some pa
  | .uncompress pa => do
      let p ← pcPatchUncompress P pa
      return some (.uncompressed p)
  | .filter pa dimnum condition val1 val2 => do
      let pa ← pcPatchFilter P pa dimnum condition val1 val2
      return some pa
  | .range pa first count => pcPatchRange P pa first count
  | .sort pa names => do
      let pa ← pcPatchSort P S pa names
      return some pa
  | .fromPatchlist palist => do
      let p ← pcPatchFromPatchlist P palist
      return some (.uncompressed p)
  | .setSchema pa s dflt => do
      let p ← pcPatchSetSchema P pa s dflt
      return some (.uncompressed p)
  | .transform pa s dflt => do
      let p ← pcPatchTransform P pa s dflt
      return p.map .uncompressed

/-- The patches that can be made by operations that meet a condition. -/
abbrev Made (P : Platform) (S : SortR) (meets : Operation → Prop) : PcPatch → Prop :=
  Derivable Operation.inputs (fun op pa => op.run P S = .ok (some pa)) meets

end Pointcloud
