import OpCatalog.Catalog.Encoding
import OpCatalog.Catalog.Validity
import OpCatalog.Discovery.Encoding
import OpCatalog.Discovery.Run
import OpCatalog.Discovery.SettingsDocument
import OpCatalog.InMemory.Snapshot
import OpCatalog.Proofs.EnumClosure
import OpCatalog.Proofs.Faults
import OpCatalog.Proofs.LateRegistration
import OpCatalog.Proofs.Numeral
import OpCatalog.Proofs.OperationLimit
import OpCatalog.Proofs.Quoted
import OpCatalog.Proofs.RaisedLimits
import OpCatalog.Proofs.RegistrationOrder
import OpCatalog.Proofs.Release
import OpCatalog.Proofs.Sessions
import OpCatalog.Proofs.Validity
import OpCatalog.Registry.Tabulated
import OpCatalog.Text.File
import OpCatalog.Toml.Record
import OpCatalog.Toml.Document
import OpCatalog.Toml.Text
import OpCatalog.Proofs.JsonText
import OpCatalog.Proofs.Rounding
import OpCatalog.Proofs.Shortest
import OpCatalog.Proofs.CatalogText
import OpCatalog.Proofs.DiscoveredText
import OpCatalog.Proofs.Registrations
import OpCatalog.Proofs.SnapshotText
import OpCatalog.Proofs.Memoryless
import OpCatalog.Proofs.Stages
import OpCatalog.Proofs.DepthFirst
import OpCatalog.Proofs.Shadowing
import OpCatalog.Proofs.Inheritance
import OpCatalog.Proofs.AfterShutdown
import OpCatalog.Proofs.NearestCategory
import OpCatalog.Proofs.FirstViolation
import OpCatalog.Proofs.Capabilities
import OpCatalog.Proofs.Admission
import OpCatalog.Proofs.Resolution
import OpCatalog.Proofs.Handles
import OpCatalog.Proofs.FlagMapping
import OpCatalog.Proofs.SnapshotEdits
