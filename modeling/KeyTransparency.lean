import KeyTransparency.Library.Octets
import KeyTransparency.Client.AuditReplay
import KeyTransparency.Client.AuditorBoundary
import KeyTransparency.Client.PrefixRefinement
import KeyTransparency.Client.Freshness
import KeyTransparency.Client.HonestCredential
import KeyTransparency.Client.LadderDecode
import KeyTransparency.Client.Material
import KeyTransparency.Client.Monitor
import KeyTransparency.Client.OwnerInit
import KeyTransparency.Client.WalkProof
import KeyTransparency.Tree.Clock
import KeyTransparency.Tree.DirectPath
import KeyTransparency.Tree.Distinguished
import KeyTransparency.Tree.Traversal
import KeyTransparency.Serial
import KeyTransparency.Client.ForkEvidence
import KeyTransparency.Client.Atomicity
import KeyTransparency.Client.AuditorKeys
import KeyTransparency.Client.AuditorRounds
import KeyTransparency.Client.Bootstrap
import KeyTransparency.Client.DistinguishedTests
import KeyTransparency.Client.LadderReturns
import KeyTransparency.Client.LogConformance
import KeyTransparency.Client.Persistence
import KeyTransparency.Library.Bisect
import KeyTransparency.Tree.Consistency
import KeyTransparency.Tree.LabelEntry
import KeyTransparency.Tree.Prune
import KeyTransparency.Tree.PrunedSearch
import KeyTransparency.Tree.Pruning
import KeyTransparency.Client.CatchUp
import KeyTransparency.Client.IssuedCredential
import KeyTransparency.Crypto.Encodings
import KeyTransparency.Tree.ChunkStore
import KeyTransparency.Tree.SearchOrder
import KeyTransparency.Client.UpdateSound
import KeyTransparency.Client.AppendOnly
import KeyTransparency.Client.FixedAgreement
import KeyTransparency.Client.Obligations
import KeyTransparency.Client.Returns
import KeyTransparency.Client.Termination
import KeyTransparency.Client.Approach
import KeyTransparency.Client.ContactAgreement
import KeyTransparency.Client.OwnerAgreement
import KeyTransparency.Client.RetainedTruth
import KeyTransparency.Client.OwnerMonitoring
import KeyTransparency.Client.ReplaySound
import KeyTransparency.Client.BulkLoad
import KeyTransparency.Client.ObligationsKept
