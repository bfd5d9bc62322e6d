import PracticalCrypto.Frodo.Retrieval
import PracticalCrypto.Frodo.Masking
import PracticalCrypto.Library.Density
import PracticalCrypto.Mta.TAndV
import PracticalCrypto.Mta.Hiding
import PracticalCrypto.Library.BigEndian
import PracticalCrypto.Library.EventLog
import PracticalCrypto.Library.Handler
import PracticalCrypto.Surf.BlockMap
import PracticalCrypto.Surf.Server.State
import PracticalCrypto.Surf.Server.Io
import PracticalCrypto.Surf.Server.Attestation
import PracticalCrypto.Surf.Server.Connection
import PracticalCrypto.Surf.Prover.Request
import PracticalCrypto.Surf.Prover.Exchange
import PracticalCrypto.Surf.Server.Machine
import PracticalCrypto.Surf.Server.Refinement
import PracticalCrypto.Surf.Server.Progress
import PracticalCrypto.Surf.Server.Runs
import PracticalCrypto.Surf.Server.CommitRelease
import PracticalCrypto.Surf.Server.KeystreamRelease
import PracticalCrypto.Surf.Server.CertificateSkip
import PracticalCrypto.Surf.Server.TagNonces
import PracticalCrypto.Library.InnerPlaintext
import PracticalCrypto.Surf.Prover.Release
import PracticalCrypto.Surf.Prover.Classification
import PracticalCrypto.Surf.Prover.Stream
import PracticalCrypto.Surf.Prover.ReleasedData
import PracticalCrypto.Surf.Prover.Truncation
import PracticalCrypto.Library.Hkdf
import PracticalCrypto.Library.Wires
import PracticalCrypto.Surf.Circuit.KeySchedule
import PracticalCrypto.Surf.Circuit.Handshake
import PracticalCrypto.Surf.Circuit.Traffic
import PracticalCrypto.Surf.Circuit.Gadgets
import PracticalCrypto.Surf.Circuit.VerifyCommit
import PracticalCrypto.Surf.Circuit.Batch
import PracticalCrypto.Library.BinaryWord
import PracticalCrypto.Library.Gf128
import PracticalCrypto.Library.Sse
import PracticalCrypto.Mta.F2128
import PracticalCrypto.Library.Gcm
import PracticalCrypto.Surf.GHash
import PracticalCrypto.Mta.Batched
import PracticalCrypto.Library.WordWires
import PracticalCrypto.Surf.Circuit.GcmShare
import PracticalCrypto.Surf.Circuit.Tag
import PracticalCrypto.Surf.Prover.TlsRecord
import PracticalCrypto.Surf.Prover.Keystream
import PracticalCrypto.Surf.Prover.LockStep
import PracticalCrypto.Mta.Consistency
import PracticalCrypto.Mta.Single
import PracticalCrypto.Mta.Repeated
import PracticalCrypto.Library.Chunks
import PracticalCrypto.Mta.Zq
import PracticalCrypto.Mta.Ectf
import PracticalCrypto.Surf.Circuit.Preprocessing
import PracticalCrypto.Surf.Server.Survival
import PracticalCrypto.Surf.Server.OrderlyRuns
import PracticalCrypto.Library.Segments
import PracticalCrypto.Surf.Channel.EmpWrapper
import PracticalCrypto.Surf.Channel.Transparency
import PracticalCrypto.Surf.Server.CertificateTranscript
import PracticalCrypto.Surf.Prover.Opening
import PracticalCrypto.Surf.Prover.Epochs
import PracticalCrypto.Frodo.Format
import PracticalCrypto.Library.Base64
import PracticalCrypto.Frodo.Operations
import PracticalCrypto.Frodo.QueryRuns
import PracticalCrypto.Surf.Prover.VerifyMessage
import PracticalCrypto.Surf.Server.Piggyback
import PracticalCrypto.Surf.Circuit.Hashing
import PracticalCrypto.Frodo.Elements
import PracticalCrypto.Frodo.Sampling
import PracticalCrypto.Surf.Circuit.NaiveGcm
import PracticalCrypto.Mta.Paired
import PracticalCrypto.Surf.Circuit.Resumption
import PracticalCrypto.Surf.Channel.Execution
import PracticalCrypto.Surf.Channel.ExactIo
import PracticalCrypto.Surf.Server.EncryptionNonces
import PracticalCrypto.Surf.Server.RetainedCiphertexts
import PracticalCrypto.Surf.Messaging
import PracticalCrypto.Surf.Server.KeyShares
import PracticalCrypto.Surf.Prover.SessionTickets
import PracticalCrypto.Library.TextSearch
import PracticalCrypto.Library.HttpText
import PracticalCrypto.Surf.Demo.Headers
import PracticalCrypto.Surf.Demo.StripHeaders
import PracticalCrypto.Surf.Demo.OriginRequest
import PracticalCrypto.Surf.Demo.HtmlAttributes
import PracticalCrypto.Surf.Demo.StageHtml
import PracticalCrypto.Library.UriReference
import PracticalCrypto.Surf.Demo.AssetPath
import PracticalCrypto.Library.Substitution
import PracticalCrypto.Surf.Demo.OutputFiles
import PracticalCrypto.Surf.Demo.RenderPage
import PracticalCrypto.Surf.BitConversion
import PracticalCrypto.Surf.Circuit.BignumBits
import PracticalCrypto.Mta.Shifts
import PracticalCrypto.Surf.Channel.Bandwidth
import PracticalCrypto.Frodo.Deployment
