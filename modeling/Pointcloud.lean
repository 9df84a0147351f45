import Pointcloud.Patch.CompressTheorems
import Pointcloud.Patch.PointnTheorems
import Pointcloud.Patch.IsSortedTheorems
import Pointcloud.Patch.Wkb
import Pointcloud.Patch.ByteOrderTheorems
import Pointcloud.Pgsql.SchemaCacheTheorems
import Pointcloud.Pgsql.EditorTheorems
import Pointcloud.Bytes.FilterTheorems
import Pointcloud.Patch.FilterPointsTheorems
import Pointcloud.Patch.DatasizeTheorems
import Pointcloud.Patch.StoredStatsTheorems
import Pointcloud.Patch.TransformAccuracyTheorems
import Pointcloud.SchemaXmlTheorems
import Pointcloud.Patch.TransposeTheorems
import Pointcloud.Patch.ExtentTheorems
import Pointcloud.Patch.SortExactTheorems
import Pointcloud.Patch.StatlessFilterTheorems
import Pointcloud.Patch.SetSchemaBoundsTheorems
import Pointcloud.Patch.SupersetTheorems
import Pointcloud.Patch.UnionTheorems
import Pointcloud.Patch.SentinelTheorems
import Pointcloud.Patch.MalformedTheorems
import Pointcloud.Patch.SliceTheorems
import Pointcloud.Patch.BuildTheorems
import Pointcloud.SchemaLayoutTheorems
import Pointcloud.SchemaCloneTheorems
import Pointcloud.Pgsql.HexwkbTheorems
import Pointcloud.Pgsql.ArrayInputTheorems
import Pointcloud.Pgsql.PcpatchCompressTheorems
import Pointcloud.Patch.PayoffTheorems
import Pointcloud.Pgsql.EnvelopeTheorems
import Pointcloud.Pgsql.TypmodTheorems
import Pointcloud.Patch.BufferTheorems
import Pointcloud.Bytes.ShiftTheorems
import Pointcloud.Patch.LazperfTheorems
import Pointcloud.SchemaReaderTheorems
import Pointcloud.Patch.ExactTheorems
import Pointcloud.Pgsql.DumpTheorems
import Pointcloud.Pgsql.GeometryTheorems
import Pointcloud.Pgsql.PointTheorems
