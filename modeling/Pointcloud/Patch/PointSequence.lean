/-
Pointcloud.Patch.PointSequence — what the operations on patches are for.

A patch is a way to keep a sequence of points of one schema. `Operation.Means`
says what an operation makes of the sequences that its patches stand for, without
regard to blocks, arrays and their encodings, bounds and statistics.
-/
import Pointcloud.Patch.FilterPointsTheorems
import Pointcloud.Patch.Operation
import Pointcloud.Patch.SliceTheorems
import Pointcloud.Patch.SortTheorems
import Pointcloud.Patch.TransformTheorems

namespace Pointcloud

open Pointcloud.Base

/-- Points of a schema, in their order. -/
structure PointSequence where
  schema : PcSchema
  points : List Bytes

/-- The order in which sorting by dimensions puts points. -/
def SortedBy (en : Endian) (dims : List PcDimension) (pts : List Bytes) : Prop :=
  (pts.map (sortKey en dims)).Pairwise (· ≤ ·)

/-- What is made of points: the given ones, those of WKB, the same ones, those that
pass a filter or are in a range, the same ones in another order, those of all
patches, or every one of them brought to another schema. -/
def Operation.Means (P : Platform) : Operation → List PointSequence → PointSequence → Prop
  | .fromPointlist pl, _, q => ∃ first, pl.points.head? = some (some first) ∧
      q = ⟨first.schema, (pl.points.filterMap id).map fun pt => pt.data.take first.schema.size⟩
  | .fromWkb s wkb, _, q => ∃ c pa u, wkbGetCompression P.endian wkb = .ok c ∧
      patchFromWkb P s wkb wkb.length c = .ok pa ∧ pcPatchUncompress P pa = .ok u ∧
        q = ⟨s, u.points⟩
  | .compress _ _, [p], q | .uncompress _, [p], q => q = p
  | .filter _ dimnum condition val1 val2, [p], q => ∃ dim, p.schema.dims[dimnum]? = some dim ∧
      q = ⟨p.schema, passing P.endian dim condition val1 val2 p.points⟩
  | .range _ first count, [p], q => q = ⟨p.schema, sliceOf p.points first count⟩
  | .sort _ names, [p], q => q.schema = p.schema ∧ q.points.Perm p.points ∧
      ∃ dims, NamesDims p.schema names dims ∧ SortedBy P.endian dims q.points
  | .fromPatchlist _, ps, q => (∀ p ∈ ps, p.schema = q.schema) ∧
      q.points = (ps.map PointSequence.points).flatten
  | .setSchema _ s dflt, [p], q => q = ⟨s, p.points.map (moved P p.schema s dflt)⟩
  | .transform _ s dflt, [p], q => q = ⟨s, p.points.map (converted P p.schema s dflt)⟩
  | _, _, _ => False

/-- The numbers of a range are those of an `int`, as is the number of points. -/
def Operation.CountsInInt : Operation → Prop
  | .range pa first _ => pa.npoints < 2147483648 ∧ -2147483648 ≤ first ∧ first ≤ 2147483647
  | _ => True

end Pointcloud
