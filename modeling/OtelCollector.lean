import OtelCollector.Exporterhelper.QueueConfig
import OtelCollector.Limiter.Capacity
import OtelCollector.Limiter.Ledger
import OtelCollector.Limiter.Interleaved
import OtelCollector.Sharder.GetShard
import OtelCollector.Sharder.Interleaved
import OtelCollector.Pdata.GoSlice
import OtelCollector.Pdata.ScopeEntitiesSlice
import OtelCollector.Pdata.RemoveIf
import OtelCollector.Pdata.MoveTo
import OtelCollector.Pdata.CopyTo
import OtelCollector.Pdata.Refinement
import OtelCollector.Pdata.ResourceEntities
