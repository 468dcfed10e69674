import PromotionManagement.ActivePromotions
import PromotionManagement.AdminInput
import PromotionManagement.AdminParameters
import PromotionManagement.AdminWrites
import PromotionManagement.AnnouncedConvergence
import PromotionManagement.AnnouncementFailures
import PromotionManagement.BasePrice
import PromotionManagement.BasePriceCalculator
import PromotionManagement.BasePriceCalculatorCache
import PromotionManagement.BatchAnnouncement
import PromotionManagement.BatchPlan
import PromotionManagement.BatchPricing
import PromotionManagement.BoundarySweep
import PromotionManagement.BulkRetry
import PromotionManagement.CatalogueWrites
import PromotionManagement.CheapestOffer
import PromotionManagement.ChunkBoundaries
import PromotionManagement.ChunkBounds
import PromotionManagement.ChunkLease
import PromotionManagement.ChunkStatusLaw
import PromotionManagement.Chunking
import PromotionManagement.ConcurrentPricing
import PromotionManagement.CutRows
import PromotionManagement.EmbeddedNewlines
import PromotionManagement.ExactRebuild
import PromotionManagement.HandOffs
import PromotionManagement.HeaderLine
import PromotionManagement.HeldAnnouncements
import PromotionManagement.ImportIntake
import PromotionManagement.ImportOrder
import PromotionManagement.IngestionRepository
import PromotionManagement.IngestionSteps
import PromotionManagement.IntakeRuns
import PromotionManagement.IntakeSafety
import PromotionManagement.IntakeSteps
import PromotionManagement.JobCounters
import PromotionManagement.KeysetScans
import PromotionManagement.LastReadWins
import PromotionManagement.LeaseExclusivity
import PromotionManagement.Library.Calendar
import PromotionManagement.Library.Credit
import PromotionManagement.Library.Csv
import PromotionManagement.Library.HeldBytes
import PromotionManagement.Library.Newest
import PromotionManagement.Library.Redis
import PromotionManagement.Library.Run
import PromotionManagement.Library.SortedSet
import PromotionManagement.Library.SplitWrites
import PromotionManagement.Library.StringDecoder
import PromotionManagement.Library.Table
import PromotionManagement.Library.Tasks
import PromotionManagement.Library.Tiling
import PromotionManagement.MalformedRows
import PromotionManagement.OrderIndependence
import PromotionManagement.OrphanChunks
import PromotionManagement.PipelinedWrites
import PromotionManagement.PricedRow
import PromotionManagement.PricingRulesVersion
import PromotionManagement.ProcessChunkCommand
import PromotionManagement.ProductPricer
import PromotionManagement.ProductRepository
import PromotionManagement.ProductSourceRepository
import PromotionManagement.ProductTrace
import PromotionManagement.ProductWriteRepository
import PromotionManagement.PromotionAnnouncer
import PromotionManagement.PromotionHistory
import PromotionManagement.PromotionListing
import PromotionManagement.PromotionReads
import PromotionManagement.PromotionRepository
import PromotionManagement.PromotionResolver
import PromotionManagement.RangeRows
import PromotionManagement.ReadModelScripts
import PromotionManagement.ReadRangeLines
import PromotionManagement.RebuildAll
import PromotionManagement.RebuildCoverage
import PromotionManagement.RebuildReadModelCommand
import PromotionManagement.RebuildReady
import PromotionManagement.RebuildSteps
import PromotionManagement.RefusedWrites
import PromotionManagement.RenderedRows
import PromotionManagement.RepairDriftCommand
import PromotionManagement.ResumedRanges
import PromotionManagement.RowAccounting
import PromotionManagement.RulesFreshness
import PromotionManagement.ScopedRebuild
import PromotionManagement.SequentialPricing
import PromotionManagement.SerializeError
import PromotionManagement.SettledListing
import PromotionManagement.Shop
import PromotionManagement.ShopConvergence
import PromotionManagement.StorableRow
import PromotionManagement.StoredProduct
import PromotionManagement.Storefront
import PromotionManagement.StorefrontConvergence
import PromotionManagement.StorefrontHandlers
import PromotionManagement.StorefrontInvariant
import PromotionManagement.StorefrontListing
import PromotionManagement.StorefrontPages
import PromotionManagement.StorefrontQueries
import PromotionManagement.StorefrontReads
import PromotionManagement.StorefrontWrites
import PromotionManagement.SweepAnnouncements
import PromotionManagement.SweepBehind
import PromotionManagement.SweepPromptness
import PromotionManagement.SweepRepair
import PromotionManagement.SweepWindows
import PromotionManagement.SweptConvergence
import PromotionManagement.SweptStorefront
import PromotionManagement.UninterruptedRun
import PromotionManagement.VendorColumns
import PromotionManagement.VendorFileRows
import PromotionManagement.VendorRow
