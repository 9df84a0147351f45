/-
Pointcloud.Pgsql.GeometryTheorems — what other programs read of points and patches.

The fields of a geometry are written one after the other into a block that they fill, in
the order in which they are encoded. So a point is read with its coordinates, and the
diagonal of a stored patch with the least and the greatest coordinates of its points
(`geometries_exact`), whether it was written of the bounds or of the statistics.

What a program reads is what `decodeGeometry` makes of the bytes, and that module
knows nothing of patches. So it is enough to show that the writers produce an
encoded geometry. A writer goes over its block with a pointer, and `writeFields_ok`
turns a sequence of writes into the concatenation of its fields once, so that the
rest is to compare two lists of fields (`geometryFields`). The word of the type is put
together from flags, which do not overlap (`or_masks`).

A diagonal is written of the statistics if the schema has a z or an m, and of the
bounds otherwise. In the second case the coordinates are x and y only
(`coordinates_of_axes`), and the bounds are their extremes.

The coordinates have to be doubles, since a geometry has no other numbers, and the
srid a word of 32 bits.
-/
import Pointcloud.Pgsql.EnvelopeTheorems
import Pointcloud.Pgsql.Geometry
import Pointcloud.Pgsql.QueryTheorems
import Pointcloud.SchemaReaderTheorems

namespace Pointcloud

open Pointcloud.Base

variable {P : Platform}

/-! ## Coordinates -/

theorem mem_of_lastNamed {names : List String} {dims : List PcDimension} {dim : PcDimension}
    (h : lastNamed names dims = some dim) : dim ∈ dims :=
  List.mem_of_mem_filter (List.mem_of_getLast? h)

/-- The dimensions that the coordinates of a place are found in: x, y, z and m. -/
def PcSchema.coordinates (s : PcSchema) : List PcDimension :=
  s.xdimension.toList ++ s.ydimension.toList ++ s.zdimension.toList ++ s.mdimension.toList

/-- The coordinates besides x and y. -/
def PcSchema.axes (s : PcSchema) : Axes := ⟨s.zdimension.isSome, s.mdimension.isSome⟩

/-- The coordinates of a point. -/
def coordinatesOf (en : Endian) (s : PcSchema) (pt : Bytes) : List ℚ :=
  s.coordinates.map fun dim => dim.valueIn en pt

theorem PcSchema.Valid.coordinates_mem {s : PcSchema} (h : s.Valid) :
    ∀ dim ∈ s.coordinates, dim ∈ s.dims := by
  obtain ⟨xdim, hx, hxdim⟩ := h.xdimension
  obtain ⟨ydim, hy, hydim⟩ := h.ydimension
  intro dim hdim
  simp only [PcSchema.coordinates, hxdim, hydim, Option.toList_some, List.cons_append,
    List.nil_append, List.mem_cons, List.mem_append, Option.mem_toList] at hdim
  obtain rfl | rfl | hz | hm := hdim
  · exact hx
  · exact hy
  · exact mem_of_lastNamed hz
  · exact mem_of_lastNamed hm

theorem PcSchema.Valid.length_coordinates {s : PcSchema} (h : s.Valid) :
    s.coordinates.length = s.axes.count := by
  obtain ⟨xdim, -, hxdim⟩ := h.xdimension
  obtain ⟨ydim, -, hydim⟩ := h.ydimension
  rw [PcSchema.coordinates, PcSchema.axes, Axes.count, hxdim, hydim]
  cases s.zdimension <;> cases s.mdimension <;> rfl

theorem pcPointGetDoubleOf_ok (en : Endian) (pt : PcPoint) {dim : Option PcDimension}
    (h : ∀ d ∈ dim, d ∈ pt.schema.dims) :
    pcPointGetDoubleOf en pt dim = .ok (dim.map fun d => d.valueIn en pt.data) := by
  cases dim with
  | none => rfl
  | some d =>
      rw [pcPointGetDoubleOf]
      simp only [pcPointGetDouble_ok en pt (h d rfl), ok_bind]
      rfl

/-! ## Names

The coordinates of a schema are the last dimensions with a name of each kind, which is
what the check of the reader leaves (`zm_of_pcSchemaFromXml`). -/

/-- A name that is among some is not among others, if none of them is. -/
theorem any_eq_false_of_any {names others : List String}
    (hdisjoint : ∀ n ∈ names, others.any (sameName n) = false) {name : String}
    (h : names.any (sameName name) = true) : others.any (sameName name) = false := by
  obtain ⟨n, hn, hsame⟩ := List.any_eq_true.mp h
  rw [show sameName name = sameName n from funext (sameName_congr hsame)]
  exact hdisjoint n hn

theorem lastNamed_concat (names : List String) (dims : List PcDimension) (dim : PcDimension) :
    lastNamed names (dims ++ [dim]) =
      if dim.name.any fun name => names.any (sameName name) then some dim
      else lastNamed names dims := by
  rw [lastNamed, List.filter_append]
  split_ifs with hname <;> simp [hname, lastNamed]

/-- The dimension at a position that may be missing. -/
def dimensionAt (dims : List XmlDimension) (i : Option Nat) : Option PcDimension :=
  i.bind fun i => (dims.map XmlDimension.toDimension)[i]?

/-- The positions of z and m, as far as dimensions have been looked at. -/
def NamedSoFar (s : XmlSchema) (front all : List XmlDimension) : Prop :=
  dimensionAt all s.zdim = lastNamed zNames (front.map XmlDimension.toDimension) ∧
    dimensionAt all s.mdim = lastNamed mNames (front.map XmlDimension.toDimension)

theorem NamedSoFar.checkName {s : XmlSchema} {front rest : List XmlDimension} {d : XmlDimension}
    (h : NamedSoFar s front (front ++ d :: rest)) {name : String} (hname : d.name = some name) :
    NamedSoFar (checkName s front.length name) (front ++ [d]) (front ++ d :: rest) := by
  have hat : dimensionAt (front ++ d :: rest) (some front.length) = some d.toDimension := by
    simp [dimensionAt]
  have hnamed : ∀ names : List String,
      (d.toDimension.name.any fun name => names.any (sameName name)) =
        names.any (sameName name) := fun names => by
    rw [show d.toDimension.name = some name from hname]
    rfl
  obtain ⟨hz, hm⟩ := h
  simp only [NamedSoFar, List.map_append, List.map_cons, List.map_nil, lastNamed_concat, hnamed]
  have hzx := @any_eq_false_of_any xNames zNames (by decide) name
  have hmx := @any_eq_false_of_any xNames mNames (by decide) name
  have hzy := @any_eq_false_of_any yNames zNames (by decide) name
  have hmy := @any_eq_false_of_any yNames mNames (by decide) name
  have hmz := @any_eq_false_of_any zNames mNames (by decide) name
  unfold Pointcloud.checkName
  split_ifs with hx hy hzn hmn
  all_goals simp_all

/-- What is looked at one dimension after the other are the last ones with the names. -/
theorem namedSoFar_of_checkXyzm : ∀ {rest front : List XmlDimension} {s s' : XmlSchema},
    NamedSoFar s front (front ++ rest) → checkXyzm front.length (rest.map some) s = .ok s' →
      NamedSoFar s' (front ++ rest) (front ++ rest)
  | [], front, s, s', h, hrun => by
      cases hrun
      rwa [List.append_nil] at h ⊢
  | d :: rest, front, s, s', h, hrun => by
      have hlen : front.length + 1 = (front ++ [d]).length := by simp
      have happend : front ++ d :: rest = (front ++ [d]) ++ rest := by simp
      rw [List.map_cons, checkXyzm, hlen] at hrun
      cases hname : d.name with
      | none =>
          rw [hname] at hrun
          have hskip : NamedSoFar s (front ++ [d]) (front ++ d :: rest) := by
            have hdim : d.toDimension.name = none := hname
            simpa [NamedSoFar, lastNamed_concat, hdim] using h
          rw [happend] at hskip ⊢
          exact namedSoFar_of_checkXyzm hskip hrun
      | some name =>
          rw [hname] at hrun
          have hnext := h.checkName hname
          rw [happend] at hnext ⊢
          exact namedSoFar_of_checkXyzm hnext hrun

/-- Metadata does not move coordinates. -/
theorem readMetadata_fields : ∀ {elements : List (List (String × String) × List XmlNode)}
    {s s' : XmlSchema}, elements.foldlM readMetadata s = .ok s' →
      s'.dims = s.dims ∧ s'.zdim = s.zdim ∧ s'.mdim = s.mdim
  | [], s, s', h => by
      cases h
      exact ⟨rfl, rfl, rfl⟩
  | element :: elements, s, s', h => by
      rw [List.foldlM_cons] at h
      obtain ⟨mid, hmid, hrest⟩ := bind_eq_ok.mp h
      obtain ⟨hdims, hz, hm⟩ := readMetadata_fields hrest
      rw [hdims, hz, hm]
      unfold readMetadata at hmid
      split at hmid
      · exact absurd hmid (fault_ne_ok mid)
      · cases hmid
        exact ⟨rfl, rfl, rfl⟩
      · cases hmid
        exact ⟨rfl, rfl, rfl⟩

/-- Of a schema that is read, `zdim` and `mdim` are the last dimensions with the names. -/
theorem zm_of_pcSchemaFromXml {root : Option XmlNode} {s : XmlSchema} {ds : List XmlDimension}
    (h : pcSchemaFromXml root = .ok (some s)) (hds : s.dims = ds.map some) :
    dimensionAt ds s.zdim = lastNamed zNames (ds.map XmlDimension.toDimension) ∧
      dimensionAt ds s.mdim = lastNamed mNames (ds.map XmlDimension.toDimension) := by
  unfold pcSchemaFromXml at h
  split at h
  · split at h
    · cases h
    · obtain ⟨added, hadded, h⟩ := bind_eq_ok.mp h
      cases added with
      | none => cases h
      | some s₀ =>
          obtain ⟨s₁, hs₁, h⟩ := bind_eq_ok.mp h
          obtain ⟨s₂, hs₂, h⟩ := bind_eq_ok.mp h
          simp only [pure_eq_ok, Except.ok.injEq] at h
          split_ifs at h
          cases h
          obtain ⟨hz, hm⟩ := (addDimensions_ok hadded (inPlace_new _)).1.unknown_zm
          obtain ⟨hdims, hz₂, hm₂⟩ := readMetadata_fields hs₂
          have hchecked : (pcSchemaCalculateByteoffsets s₀).dims = ds.map some := by
            rw [← hds, hdims, (checkXyzm_rechecked (Nat.le_of_eq (Nat.zero_add _)) hs₁).dims_eq]
          rw [pcSchemaCheckXyzm, hchecked] at hs₁
          rw [hz₂, hm₂]
          refine @namedSoFar_of_checkXyzm _ [] _ _ ⟨?_, ?_⟩ hs₁
          · rw [show (pcSchemaCalculateByteoffsets s₀).zdim = none from hz]
            rfl
          · rw [show (pcSchemaCalculateByteoffsets s₀).mdim = none from hm]
            rfl
  · cases h

/-! ## Fields

A geometry as a list of fields: the byte order, the type, the srid if there is one,
and then its numbers. -/

theorem withFlag_eq (has : Bool) (mask bytes : Nat) (wkb : Nat × Nat) :
    withFlag has mask bytes wkb =
      (if has then wkb.1 ||| mask else wkb.1, wkb.2 + has.toNat * bytes) := by
  cases has <;> simp [withFlag]

/-- The masks are the flags of a type. -/
theorem or_masks {code : Nat} (h : code = 1 ∨ code = 2) (srid z m : Bool) :
    (let type := if srid then code ||| sridMask else code
     let type := if z then type ||| zMask else type
     if m then type ||| mMask else type) = flaggedType code srid m z := by
  obtain rfl | rfl := h <;> revert srid z m <;> decide

theorem withFlag_type {code : Nat} (h : code = 1 ∨ code = 2) (srid z m : Bool)
    (n sridBytes zBytes mBytes : Nat) :
    withFlag m mMask mBytes (withFlag z zMask zBytes (withFlag srid sridMask sridBytes (code, n))) =
      (flaggedType code srid m z,
        n + srid.toNat * sridBytes + z.toNat * zBytes + m.toNat * mBytes) := by
  rw [withFlag_eq, withFlag_eq, withFlag_eq]
  exact Prod.ext (or_masks h srid z m) rfl

/-- Fields that fill a block from its begin. -/
theorem writeFields_ok (fields : List Bytes) :
    fields.foldlM pcPatchWkbSet (zeros fields.flatten.length, 0) =
      .ok (fields.flatten, fields.flatten.length) := by
  have h := foldlM_pcPatchWkbSet fields [] (zeros fields.flatten.length)
    (Nat.le_of_eq (length_zeros _).symm)
  rw [List.drop_eq_nil_of_le (Nat.le_of_eq (length_zeros _))] at h
  simpa using h

/-- The bytes of coordinates. -/
def placeFields (en : Endian) (place : List ℚ) : List Bytes :=
  place.map fun x => en.bytesOf 8 (ieeeEncode 11 52 x)

/-- The fields of a geometry, in the order in which they are written. -/
def geometryFields (en : Endian) (g : Geometry) : List Bytes :=
  [[endianFlag en], en.bytesOf 4 g.type] ++ g.srid.toList.map (en.bytesOf 4) ++
    match g.shape with
    | .point place => placeFields en place
    | .line places => en.bytesOf 4 places.length :: places.flatMap (placeFields en)

theorem flatten_placeFields (en : Endian) (place : List ℚ) :
    (placeFields en place).flatten = encodePlace en place := by
  rw [placeFields, encodePlace, List.flatMap_def]

theorem flatten_geometryFields (en : Endian) (g : Geometry) :
    (geometryFields en g).flatten = encodeGeometry en g := by
  obtain ⟨srid, axes, shape⟩ := g
  have hplaces : ∀ places : List (List ℚ), (places.flatMap (placeFields en)).flatten =
      places.flatMap (encodePlace en) := fun places => by
    induction places with
    | nil => rfl
    | cons place places ih => simp [flatten_placeFields, ih]
  cases srid <;> cases shape <;>
    simp [geometryFields, encodeGeometry, encodeSrid, encodeShape, flatten_placeFields, hplaces]

/-! ## Points -/

/-- A point as others read it. -/
def pointGeometry (en : Endian) (s : PcSchema) (pt : Bytes) : Geometry :=
  ⟨s.sridIfAny, s.axes, .point (coordinatesOf en s pt)⟩

/-- A line from corner to corner. -/
def diagonalGeometry (s : PcSchema) (lo hi : List ℚ) : Geometry :=
  ⟨s.sridIfAny, s.axes, .line [lo, hi]⟩

theorem isSome_sridIfAny (s : PcSchema) : s.sridIfAny.isSome = decide (s.srid ≠ 0) := by
  unfold PcSchema.sridIfAny
  split_ifs with h
  · simp [Nat.pos_iff_ne_zero.mp h]
  · simp [Nat.eq_zero_of_not_pos h]

theorem wkbSetSrid_eq (en : Endian) (s : PcSchema) (wkb : Bytes × Nat) :
    wkbSetSrid en wkb s.srid =
      (s.sridIfAny.toList.map (en.bytesOf 4)).foldlM pcPatchWkbSet wkb := by
  unfold wkbSetSrid PcSchema.sridIfAny
  by_cases h : s.srid = 0
  · simp [h]
  · have hpos : 0 < s.srid := Nat.pos_of_ne_zero h
    rw [if_pos h, if_pos hpos]
    simp only [Option.toList_some, List.map_cons, List.map_nil, List.foldlM_cons, List.foldlM_nil,
      bind_pure, wkbSetUint32]

theorem wkbSetDoubleIf_eq (en : Endian) (wkb : Bytes × Nat) (d : Option ℚ) :
    wkbSetDoubleIf en wkb d = (placeFields en d.toList).foldlM pcPatchWkbSet wkb := by
  cases d with
  | none => rfl
  | some d =>
      simp only [wkbSetDoubleIf, wkbSetDouble, placeFields, Option.toList_some, List.map_cons,
        List.map_nil, List.foldlM_cons, List.foldlM_nil, bind_pure]

/-- A block that is allocated for fields is filled by them. -/
theorem writeBlock_ok {fields : List Bytes} {size : Nat} (hsize : fields.flatten.length = size)
    (hlt : size < 9223372036854775808) : (do
      let wkb ← pcalloc size
      fields.foldlM pcPatchWkbSet (wkb, 0)) = .ok (fields.flatten, size) := by
  subst hsize
  rw [pcalloc_ok hlt, ok_bind, writeFields_ok]

section Valid

variable {en : Endian} {s : PcSchema} (hvalid : s.Valid)

include hvalid

/-- Points have an x and a y, and the other coordinates that there are dimensions for. -/
theorem pcPointToGeometryWkb_ok {pt : PcPoint} (hs : pt.schema = s) :
    pcPointToGeometryWkb en pt =
      .ok (some (encodeGeometry en (pointGeometry en s pt.data),
        (encodeGeometry en (pointGeometry en s pt.data)).length)) := by
  subst hs
  obtain ⟨xdim, hx, hxdim⟩ := hvalid.xdimension
  obtain ⟨ydim, hy, hydim⟩ := hvalid.ydimension
  have hget : ∀ dim : Option PcDimension, (∀ d ∈ dim, d ∈ pt.schema.dims) →
      pcPointGetDoubleOf en pt dim = .ok (dim.map fun d => d.valueIn en pt.data) :=
    fun dim h => pcPointGetDoubleOf_ok en pt h
  have hz := hget pt.schema.zdimension fun d hd => mem_of_lastNamed hd
  have hm := hget pt.schema.mdimension fun d hd => mem_of_lastNamed hd
  have hplace : coordinatesOf en pt.schema pt.data =
      [xdim.valueIn en pt.data, ydim.valueIn en pt.data] ++
        (pt.schema.zdimension.map fun d => d.valueIn en pt.data).toList ++
        (pt.schema.mdimension.map fun d => d.valueIn en pt.data).toList := by
    rw [coordinatesOf, PcSchema.coordinates, hxdim, hydim]
    cases pt.schema.zdimension <;> cases pt.schema.mdimension <;> rfl
  have hrun : pcPointToGeometryWkb en pt = (do
      let size := 1 + 4 + 8 + 8 + (decide (pt.schema.srid ≠ 0)).toNat * 4 +
        pt.schema.zdimension.isSome.toNat * 8 + pt.schema.mdimension.isSome.toNat * 8
      let ptr ← (do
        let wkb ← pcalloc size
        (geometryFields en (pointGeometry en pt.schema pt.data)).foldlM pcPatchWkbSet (wkb, 0))
      return some (ptr.1, size)) := by
    rw [pcPointToGeometryWkb, pcPointGetX, pcPointGetY, pcPointGetZ, pcPointGetM,
      hget _ (by rw [hxdim]; simpa using hx), hget _ (by rw [hydim]; simpa using hy), hz, hm,
      hxdim, hydim]
    simp only [ok_bind, Option.map_some, Option.isSome_map, withFlag_type (.inl rfl), wkbSetChar,
      wkbSetUint32, wkbSetDouble, wkbSetSrid_eq, wkbSetDoubleIf_eq, machineEndian_eq,
      geometryFields, pointGeometry, hplace, placeFields, List.map_append, List.map_cons,
      List.foldlM_append, List.foldlM_cons, bind_assoc, List.cons_append, List.nil_append,
      Geometry.type, Shape.code, isSome_sridIfAny, PcSchema.axes]
  have hsize : (geometryFields en (pointGeometry en pt.schema pt.data)).flatten.length =
      1 + 4 + 8 + 8 + (decide (pt.schema.srid ≠ 0)).toNat * 4 +
        pt.schema.zdimension.isSome.toNat * 8 + pt.schema.mdimension.isSome.toNat * 8 := by
    rw [flatten_geometryFields, length_encodeGeometry, length_encodeShape]
    simp only [pointGeometry, coordinatesOf, List.length_map, hvalid.length_coordinates,
      isSome_sridIfAny, PcSchema.axes, Axes.count]
    omega
  have hlt : (geometryFields en (pointGeometry en pt.schema pt.data)).flatten.length <
      9223372036854775808 := by
    have := (decide (pt.schema.srid ≠ 0)).toNat_lt
    have := pt.schema.zdimension.isSome.toNat_lt
    have := pt.schema.mdimension.isSome.toNat_lt
    omega
  rw [hrun]
  simp only [← hsize]
  rw [writeBlock_ok rfl hlt, flatten_geometryFields]
  rfl

/-- A point of the statistics is written with all coordinates, and the variable holds the
last of them. -/
theorem wkbSetStat_eq {stat : PcPoint} (hs : stat.schema = s) : ∃ val', ∀ ptr val,
    wkbSetStat en s stat (ptr, val) = (do
      let ptr ← (placeFields en (coordinatesOf en s stat.data)).foldlM pcPatchWkbSet ptr
      return (ptr, val')) := by
  subst hs
  obtain ⟨xdim, hx, hxdim⟩ := hvalid.xdimension
  obtain ⟨ydim, hy, hydim⟩ := hvalid.ydimension
  have hget : ∀ dim ∈ stat.schema.dims, ∀ ptr val,
      wkbSetCoordinate en (pcPointGetDoubleOf en stat (some dim)) (ptr, val) = (do
        let ptr ← pcPatchWkbSet ptr (en.bytesOf 8 (ieeeEncode 11 52 (dim.valueIn en stat.data)))
        return (ptr, dim.valueIn en stat.data)) := fun dim hd ptr val => by
    rw [wkbSetCoordinate, pcPointGetDoubleOf_ok en stat (by simpa using hd)]
    rfl
  have hz : ∀ d, stat.schema.zdimension = some d → d ∈ stat.schema.dims :=
    fun d hd => mem_of_lastNamed hd
  have hm : ∀ d, stat.schema.mdimension = some d → d ∈ stat.schema.dims :=
    fun d hd => mem_of_lastNamed hd
  simp only [wkbSetStat, pcPointGetX, pcPointGetY, pcPointGetZ, pcPointGetM, hxdim,
    hydim, hget _ hx, hget _ hy, coordinatesOf, PcSchema.coordinates, placeFields]
  cases hzdim : stat.schema.zdimension with
  | none =>
      cases hmdim : stat.schema.mdimension with
      | none =>
          refine ⟨ydim.valueIn en stat.data, fun ptr val => ?_⟩
          simp [bind_assoc]
      | some mdim =>
          refine ⟨mdim.valueIn en stat.data, fun ptr val => ?_⟩
          simp [hget _ (hm mdim hmdim), bind_assoc]
  | some zdim =>
      cases hmdim : stat.schema.mdimension with
      | none =>
          refine ⟨zdim.valueIn en stat.data, fun ptr val => ?_⟩
          simp [hget _ (hz zdim hzdim), bind_assoc]
      | some mdim =>
          refine ⟨mdim.valueIn en stat.data, fun ptr val => ?_⟩
          simp [hget _ (hz zdim hzdim), hget _ (hm mdim hmdim), bind_assoc]

/-- The diagonal of statistics. -/
theorem pcBoundingDiagonalWkbFromStats_ok {stats : PcStats} (hmin : stats.min.schema = s)
    (hmax : stats.max.schema = s) (garbage : ℚ) :
    pcBoundingDiagonalWkbFromStats en garbage stats =
      .ok (encodeGeometry en (diagonalGeometry s (coordinatesOf en s stats.min.data)
          (coordinatesOf en s stats.max.data)),
        (encodeGeometry en (diagonalGeometry s (coordinatesOf en s stats.min.data)
          (coordinatesOf en s stats.max.data))).length) := by
  obtain ⟨val, hfirst⟩ := @wkbSetStat_eq en s hvalid _ hmin
  obtain ⟨val', hsecond⟩ := @wkbSetStat_eq en s hvalid _ hmax
  generalize hg : diagonalGeometry s (coordinatesOf en s stats.min.data)
    (coordinatesOf en s stats.max.data) = g
  have hsize : (geometryFields en g).flatten.length = 1 + 4 + 4 + 2 * 2 * 8 +
      (decide (s.srid ≠ 0)).toNat * 4 + s.zdimension.isSome.toNat * (2 * 8) +
        s.mdimension.isSome.toNat * (2 * 8) := by
    rw [flatten_geometryFields, length_encodeGeometry, length_encodeShape, ← hg]
    simp only [diagonalGeometry, coordinatesOf, List.map_cons, List.map_nil, List.sum_cons,
      List.sum_nil, List.length_map, hvalid.length_coordinates, isSome_sridIfAny, PcSchema.axes,
      Axes.count]
    omega
  have hlt : (geometryFields en g).flatten.length < 9223372036854775808 := by
    have := (decide (s.srid ≠ 0)).toNat_lt
    have := s.zdimension.isSome.toNat_lt
    have := s.mdimension.isSome.toNat_lt
    omega
  have hrun : pcBoundingDiagonalWkbFromStats en garbage stats = (do
      let ptr ← (do
        let wkb ← pcalloc (geometryFields en g).flatten.length
        (geometryFields en g).foldlM pcPatchWkbSet (wkb, 0))
      return (ptr.1, (geometryFields en g).flatten.length)) := by
    rw [hsize, pcBoundingDiagonalWkbFromStats, hmin, ← hg]
    simp only [withFlag_type (.inr rfl), wkbSetChar, wkbSetUint32, wkbSetSrid_eq, machineEndian_eq,
      hfirst, hsecond, geometryFields, diagonalGeometry, List.flatMap_cons, List.flatMap_nil,
      List.foldlM_append, List.foldlM_cons, List.foldlM_nil, bind_assoc, pure_bind,
      List.cons_append, List.nil_append, Geometry.type, Shape.code, isSome_sridIfAny, PcSchema.axes]
    rfl
  rw [hrun, writeBlock_ok rfl hlt, flatten_geometryFields]
  rfl

end Valid

/-- The diagonal of bounds, if there is no other coordinate. -/
theorem pcBoundingDiagonalWkbFromBounds_ok {en : Endian} {s : PcSchema}
    (haxes : s.axes = ⟨false, false⟩)
    (b : PcBounds) :
    pcBoundingDiagonalWkbFromBounds en b s =
      .ok (encodeGeometry en (diagonalGeometry s [b.xmin, b.ymin] [b.xmax, b.ymax]),
        (encodeGeometry en (diagonalGeometry s [b.xmin, b.ymin] [b.xmax, b.ymax])).length) := by
  generalize hg : diagonalGeometry s [b.xmin, b.ymin] [b.xmax, b.ymax] = g
  have hsize : (geometryFields en g).flatten.length = 1 + 4 + 4 + 2 * 2 * 8 +
      (decide (s.srid ≠ 0)).toNat * 4 := by
    rw [flatten_geometryFields, length_encodeGeometry, length_encodeShape, ← hg]
    simp only [diagonalGeometry, List.map_cons, List.map_nil, List.sum_cons, List.sum_nil,
      List.length_cons, List.length_nil, isSome_sridIfAny]
    omega
  have hlt : (geometryFields en g).flatten.length < 9223372036854775808 := by
    have := (decide (s.srid ≠ 0)).toNat_lt
    omega
  have hrun : pcBoundingDiagonalWkbFromBounds en b s = (do
      let ptr ← (do
        let wkb ← pcalloc (geometryFields en g).flatten.length
        (geometryFields en g).foldlM pcPatchWkbSet (wkb, 0))
      return (ptr.1, (geometryFields en g).flatten.length)) := by
    have hplain : withFlag (decide (s.srid ≠ 0)) sridMask 4 (2, 1 + 4 + 4 + 2 * 2 * 8) =
        (flaggedType 2 (decide (s.srid ≠ 0)) false false,
          1 + 4 + 4 + 2 * 2 * 8 + (decide (s.srid ≠ 0)).toNat * 4) := by
      rw [withFlag_eq]
      exact Prod.ext (or_masks (.inr rfl) _ false false) rfl
    rw [hsize, pcBoundingDiagonalWkbFromBounds, ← hg]
    simp only [hplain, wkbSetChar, wkbSetUint32, wkbSetDouble, wkbSetSrid_eq, machineEndian_eq,
      geometryFields, diagonalGeometry, placeFields, List.map_cons, List.map_nil, List.flatMap_cons,
      List.flatMap_nil, List.foldlM_append, List.foldlM_cons, List.foldlM_nil, bind_assoc,
      List.append_nil, pure_bind,
      List.cons_append, List.nil_append, Geometry.type, Shape.code, isSome_sridIfAny, haxes]
    rfl
  rw [hrun, writeBlock_ok rfl hlt, flatten_geometryFields]
  rfl

/-! ## Stored patches

The summary of a stored patch is that of its points, so the two ends of the diagonal
are the corners of the box around them (`CornerOf`). -/

theorem coordinates_of_axes {s : PcSchema}
    (h : (s.zdimension.isSome || s.mdimension.isSome) = false) :
    s.axes = ⟨false, false⟩ ∧ s.coordinates = s.xdimension.toList ++ s.ydimension.toList := by
  simp only [Bool.or_eq_false_iff, Option.isSome_eq_false_iff, Option.isNone_iff_eq_none] at h
  obtain ⟨hz, hm⟩ := h
  simp [PcSchema.axes, PcSchema.coordinates, hz, hm]

/-- A corner has an extreme of every coordinate. -/
def CornerOf (extreme : List ℚ → ℚ → Prop) (en : Endian) (s : PcSchema) (pts : List Bytes)
    (corner : List ℚ) : Prop :=
  List.Forall₂ (fun (dim : PcDimension) x => extreme (dim.column en pts) x) s.coordinates corner

/-- A corner whose coordinates are those of points is written as it is. -/
theorem CornerOf.encodable {extreme : List ℚ → ℚ → Prop} (hmem : ∀ {vs x}, extreme vs x → x ∈ vs)
    {en : Endian} {s : PcSchema} (hvalid : s.Valid) {pts : List Bytes} {corner : List ℚ}
    (h : CornerOf extreme en s pts corner)
    (hdouble : ∀ dim ∈ s.coordinates, ∀ pt ∈ pts, IsDouble (dim.valueIn en pt)) :
    EncodablePlace s.axes corner := by
  refine ⟨h.length_eq.symm.trans hvalid.length_coordinates, fun x hx => ?_⟩
  obtain ⟨i, hi, rfl⟩ := List.mem_iff_getElem.mp hx
  have hi' : i < s.coordinates.length := by rw [h.length_eq]; exact hi
  have hextreme := (List.forall₂_iff_get.mp h).2 i hi' hi
  obtain ⟨pt, hpt, heq⟩ := List.mem_map.mp (hmem hextreme)
  simp only [List.get_eq_getElem] at heq
  rw [← heq]
  exact (hdouble _ (List.getElem_mem hi') pt hpt).hasWord

theorem cornerOf_map {extreme : List ℚ → ℚ → Prop} {en : Endian} {s : PcSchema} {pts : List Bytes}
    {pt : Bytes} (h : ∀ dim ∈ s.coordinates, extreme (dim.column en pts) (dim.valueIn en pt)) :
    CornerOf extreme en s pts (coordinatesOf en s pt) := by
  rw [CornerOf, coordinatesOf, List.forall₂_map_right_iff, List.forall₂_same]
  exact h

/-- A geometry whose places can be encoded is read as it was written. -/
theorem decodeGeometry_written {en : Endian} {g : Geometry} (h : EncodableGeometry g) :
    decodeGeometry (encodeGeometry en g) = some (g, []) := by
  have hread := @decodeGeometry_encodeGeometry en g h []
  rwa [List.append_nil] at hread

theorem srid_lt_of_sridIfAny {s : PcSchema} (hsrid : s.srid < 4294967296) :
    ∀ srid ∈ s.sridIfAny, srid < 4294967296 := by
  intro srid h
  unfold PcSchema.sridIfAny at h
  split at h
  · cases h
    exact hsrid
  · cases h

/-- What is returned of a block that is read whole. -/
theorem readAt_whole (wkb : Bytes) : readAt wkb 0 wkb.length = .ok wkb := by
  have hread : readAt wkb ((0 : Nat) : Int) wkb.length = _ :=
    readAt_ok (Nat.le_of_eq (Nat.zero_add _))
  rwa [List.drop_zero, List.take_length] at hread

section Represents

variable {lookup : Nat → Run (Option PcSchema)} {sp : SerializedPatch} {ps : PointSequence}
  (h : sp.Represents P lookup ps)

include h

/-- The diagonal goes from the least to the greatest coordinates. -/
theorem SerializedPatch.Represents.boundingDiagonal_ok : ∃ lo hi,
    (∀ garbage, pcpatchBoundingDiagonalAsBytea P lookup garbage sp =
      .ok (encodeGeometry P.endian (diagonalGeometry ps.schema lo hi))) ∧
    CornerOf LeastOf P.endian ps.schema ps.points lo ∧
    CornerOf GreatestOf P.endian ps.schema ps.points hi := by
  obtain ⟨p, _, hstored, hkept⟩ := h.stored
  have hs : ps.schema.Integral := hstored.schema_eq ▸ hkept.integral
  have hpcid : (getHeaderX P.endian sp 400).pcid = sp.pcid := rfl
  have hschema : schemaFromPcid lookup sp.pcid = .ok ps.schema := schemaFromPcid_eq_ok.mpr h.found
  by_cases hzm : (ps.schema.zdimension.isSome || ps.schema.mdimension.isSome) = true
  · obtain ⟨b, st, hst, hsummary⟩ := h.headerStats_ok
    obtain ⟨hmin, hmax, -⟩ := hsummary.stats_over
    refine ⟨coordinatesOf P.endian ps.schema st.min.data,
      coordinatesOf P.endian ps.schema st.max.data,
      fun garbage => ?_, cornerOf_map fun dim hd => ?_, cornerOf_map fun dim hd => ?_⟩
    · rw [headerStats] at hst
      simp only [hpcid, hschema, ok_bind] at hst
      rw [pcpatchBoundingDiagonalAsBytea]
      simp only [hpcid, hschema, ok_bind, hzm, if_true, hst]
      rw [pcBoundingDiagonalWkbFromStats_ok hs.valid hmin hmax, ok_bind]
      exact readAt_whole _
    · exact (hsummary.extremes hs (hs.valid.coordinates_mem dim hd)).1
    · exact (hsummary.extremes hs (hs.valid.coordinates_mem dim hd)).2
  · rw [Bool.not_eq_true] at hzm
    obtain ⟨haxes, hcoordinates⟩ := coordinates_of_axes hzm
    obtain ⟨xdim, hx, hxdim⟩ := hs.valid.xdimension
    obtain ⟨ydim, hy, hydim⟩ := hs.valid.ydimension
    have hbounds := h.bounds_exact
    obtain ⟨hxmin, hxmax⟩ := hbounds.1 xdim hxdim
    obtain ⟨hymin, hymax⟩ := hbounds.2 ydim hydim
    rw [hxdim, hydim] at hcoordinates
    refine ⟨[sp.bounds.xmin, sp.bounds.ymin], [sp.bounds.xmax, sp.bounds.ymax],
      fun garbage => ?_, ?_, ?_⟩
    · have hhead : (getHeaderX P.endian sp 400).bounds = sp.bounds := rfl
      rw [pcpatchBoundingDiagonalAsBytea]
      simp only [hpcid, hschema, ok_bind, hzm, hhead, Bool.false_eq_true, if_false,
        pcBoundingDiagonalWkbFromBounds_ok haxes]
      exact readAt_whole _
    · rw [CornerOf, hcoordinates]
      exact .cons hxmin (.cons hymin .nil)
    · rw [CornerOf, hcoordinates]
      exact .cons hxmax (.cons hymax .nil)

/-- A point of a patch is written with its coordinates. -/
theorem SerializedPatch.Represents.pointAsBytea_ok (htable : FormatsTable lookup) {data : Bytes}
    (hdata : data ∈ ps.points) :
    pcpointAsBytea P lookup ⟨setVarsize P.endian (11 + ps.schema.size), ps.schema.pcid, data⟩ =
      .ok (encodeGeometry P.endian (pointGeometry P.endian ps.schema data)) := by
  obtain ⟨q, -, hschema, -, hsto⟩ := h.read
  have hlen : data.length = ps.schema.size := hschema ▸ hsto.kept.stands.width_eq data hdata
  have hfound : lookup ps.schema.pcid = .ok (some ps.schema) := by
    rw [htable.pcid_eq h.found, h.found]
  have hs : ps.schema.Integral := hschema ▸ hsto.kept.integral
  rw [pcpointAsBytea]
  simp only [schemaFromPcid_eq_ok.mpr hfound, ok_bind, pcPointDeserialize_ok hlen h.statsSize_lt]
  rw [pcPointToGeometryWkb_ok hs.valid rfl, ok_bind]
  exact readAt_whole _

end Represents

/-- The geometry of a point whose coordinates are doubles is read as it was written. -/
theorem encodable_pointGeometry {en : Endian} {s : PcSchema} (hvalid : s.Valid)
    (hsrid : s.srid < 4294967296) {pt : Bytes}
    (hdouble : ∀ dim ∈ s.coordinates, IsDouble (dim.valueIn en pt)) :
    EncodableGeometry (pointGeometry en s pt) where
  srid_lt := srid_lt_of_sridIfAny hsrid
  shape := by
    refine ⟨(List.length_map ..).trans hvalid.length_coordinates, fun x hx => ?_⟩
    obtain ⟨dim, hdim, rfl⟩ := List.mem_map.mp hx
    exact (hdouble dim hdim).hasWord

/-- The geometry of a diagonal whose corners can be encoded is read as it was written. -/
theorem encodable_diagonalGeometry {s : PcSchema} (hsrid : s.srid < 4294967296) {lo hi : List ℚ}
    (hlo : EncodablePlace s.axes lo) (hhi : EncodablePlace s.axes hi) :
    EncodableGeometry (diagonalGeometry s lo hi) where
  srid_lt := srid_lt_of_sridIfAny hsrid
  shape := by
    refine ⟨by simp, fun place hplace => ?_⟩
    obtain rfl | rfl : place = lo ∨ place = hi := by simpa using hplace
    · exact hlo
    · exact hhi

/-- What others read of a stored patch: a line from the least to the greatest coordinates
of its points, and each of the points that are taken out with its coordinates. -/
theorem geometries_exact (P : Platform) {lookup : Nat → Run (Option PcSchema)}
    (htable : FormatsTable lookup) (S : SortR) : ∀ sp, StoredBySession P lookup S sp →
    ∀ q u, readPatch P lookup sp = .ok q → pcPatchUncompress P q = .ok u →
      q.schema.srid < 4294967296 →
      (∀ dim ∈ q.schema.coordinates, ∀ pt ∈ u.points, IsDouble (dim.valueIn P.endian pt)) →
      (∃ wkb lo hi,
        (∀ garbage, pcpatchBoundingDiagonalAsBytea P lookup garbage sp = .ok wkb) ∧
        decodeGeometry wkb = some (diagonalGeometry q.schema lo hi, []) ∧
        CornerOf LeastOf P.endian q.schema u.points lo ∧
        CornerOf GreatestOf P.endian q.schema u.points hi) ∧
      ∃ serpts wkbs, pcpatchUnnest P lookup sp = .ok serpts ∧
        serpts.mapM (pcpointAsBytea P lookup) = .ok wkbs ∧
        wkbs.map decodeGeometry =
          u.points.map fun pt => some (pointGeometry P.endian q.schema pt, []) := by
  intro sp hsp q u hq hu hsrid hdouble
  have hrep := represents_of_read htable hsp hq hu
  obtain ⟨q', hq', -, -, hsto⟩ := hrep.read
  cases hq.symm.trans hq'
  have hvalid : q.schema.Valid := hsto.kept.integral.valid
  constructor
  · obtain ⟨lo, hi, hrun, hlo, hhi⟩ := hrep.boundingDiagonal_ok
    refine ⟨_, lo, hi, hrun, decodeGeometry_written (encodable_diagonalGeometry hsrid ?_ ?_),
      hlo, hhi⟩
    · exact hlo.encodable (fun h => h.1) hvalid hdouble
    · exact hhi.encodable (fun h => h.1) hvalid hdouble
  · refine ⟨_, u.points.map fun pt => encodeGeometry P.endian (pointGeometry P.endian q.schema pt),
      hrep.unnest_ok, ?_, ?_⟩
    · rw [List.mapM_map]
      exact mapM_eq_ok_map fun pt hpt => hrep.pointAsBytea_ok htable hpt
    · rw [List.map_map]
      refine List.map_congr_left fun pt hpt => ?_
      exact decodeGeometry_written (encodable_pointGeometry hvalid hsrid fun dim hdim =>
        hdouble dim hdim pt hpt)

/-- The stored point at two and five, and the diagonal of it. -/
theorem geometries_exact_witness : ∃ sp wkb, pcpatchBoundingDiagonalAsBytea Platform.plain oneFormat
      0 sp = .ok wkb ∧
    (decodeGeometry wkb).map (fun g => g.1.shape) = some (.line [[2, 5], [2, 5]]) := by
  obtain ⟨-, sp, q, u, hstored, hq, hu, hpoints⟩ := exists_sessionReads
  have hschema := (oneFormat_eq_ok (represents_of_read oneFormat_table hstored hq hu).found).2
  simp only at hschema
  have hcoordinates : q.schema.coordinates =
      [⟨some "X", 0, 1, 0, .uint8, 1, 0⟩, ⟨some "Y", 1, 1, 1, .uint8, 1, 0⟩] := by
    rw [hschema]
    decide +kernel
  have hx : PcDimension.column .little ⟨some "X", 0, 1, 0, .uint8, 1, 0⟩ [[2, 5]] =
      [((2 : Nat) : ℚ)] := by decide +kernel
  have hy : PcDimension.column .little ⟨some "Y", 1, 1, 1, .uint8, 1, 0⟩ [[2, 5]] =
      [((5 : Nat) : ℚ)] := by decide +kernel
  have hdouble : ∀ dim ∈ q.schema.coordinates, ∀ pt ∈ u.points,
      IsDouble (dim.valueIn Platform.plain.endian pt) := by
    rw [hcoordinates, hpoints]
    intro dim hdim pt hpt
    have hmem : dim.valueIn .little pt ∈ dim.column .little [[2, 5]] := List.mem_map_of_mem hpt
    simp only [List.mem_cons, List.not_mem_nil, or_false] at hdim
    obtain rfl | rfl := hdim
    · rw [hx, List.mem_singleton] at hmem
      exact hmem ▸ isDouble_of_lt_eight (by decide)
    · rw [hy, List.mem_singleton] at hmem
      exact hmem ▸ isDouble_of_lt_eight (by decide)
  obtain ⟨⟨wkb, lo, hi, hrun, hread, hlo, hhi⟩, -⟩ := geometries_exact Platform.plain
    oneFormat_table SortR.insertion sp hstored q u hq hu (by rw [hschema]; decide) hdouble
  have hcorner : ∀ extreme : List ℚ → ℚ → Prop, (∀ {vs x}, extreme vs x → x ∈ vs) →
      ∀ corner, CornerOf extreme .little q.schema u.points corner → corner = [2, 5] := by
    intro extreme hmem corner hextreme
    rw [CornerOf, hcoordinates, hpoints] at hextreme
    obtain _ | ⟨hfirst, _ | ⟨hsecond, _ | _⟩⟩ := hextreme
    have hfirst' := hmem hfirst
    have hsecond' := hmem hsecond
    rw [hx, List.mem_singleton] at hfirst'
    rw [hy, List.mem_singleton] at hsecond'
    simp [hfirst', hsecond']
  rw [hcorner LeastOf (fun h => h.1) lo hlo, hcorner GreatestOf (fun h => h.1) hi hhi] at hread
  exact ⟨sp, wkb, hrun 0, by rw [hread]; rfl⟩

end Pointcloud
