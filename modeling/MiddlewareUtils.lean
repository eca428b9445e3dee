import MiddlewareUtils.Proofs.BucketExpiry
import MiddlewareUtils.Proofs.BucketEviction
import MiddlewareUtils.Proofs.GateSpacing
import MiddlewareUtils.Proofs.GateClock
import MiddlewareUtils.Proofs.GateProbe
import MiddlewareUtils.Proofs.GateExponent
import MiddlewareUtils.Proofs.GateEntries
import MiddlewareUtils.Proofs.GateCooldown
import MiddlewareUtils.Proofs.ShortAddresses
import MiddlewareUtils.Proofs.ExactBound
import MiddlewareUtils.Proofs.ExactExpiry
import MiddlewareUtils.Proofs.WindowLengths
import MiddlewareUtils.Proofs.PeekDecay
import MiddlewareUtils.Proofs.SingleChain
import MiddlewareUtils.Proofs.StopFlush
import MiddlewareUtils.Proofs.BufferedContact
import MiddlewareUtils.Proofs.BufferedReturns
import MiddlewareUtils.Proofs.ReclaimExclusive
import MiddlewareUtils.Proofs.ReclaimGuards
import MiddlewareUtils.Proofs.ReclaimEndings
import MiddlewareUtils.Proofs.ReclaimPeek
import MiddlewareUtils.Proofs.AliasMutex
import MiddlewareUtils.Proofs.AliasDelivery
import MiddlewareUtils.Proofs.PanicRelease
import MiddlewareUtils.Proofs.IdleReturns
import MiddlewareUtils.Proofs.MSetEXFallback
import MiddlewareUtils.Proofs.ParseLen
import MiddlewareUtils.Proofs.RetryBackoff
