import JarSigners.CommandLine.Folder
import JarSigners.Main
import JarSigners.Proofs.Archive.Classes
import JarSigners.Proofs.Archive.Limits
import JarSigners.Proofs.Archive.Streaming
import JarSigners.Proofs.Archive.Tables
import JarSigners.Proofs.Base64.Canonical
import JarSigners.Proofs.Certificate.Fingerprint
import JarSigners.Proofs.Certificate.GivenNames
import JarSigners.Proofs.CommandLine.Questions
import JarSigners.Proofs.Config
import JarSigners.Proofs.Manifest.Tiling
import JarSigners.Proofs.Manifest.Wrapping
import JarSigners.Proofs.SignatureBlock.Binding
import JarSigners.Proofs.SignatureFile.Growth
import JarSigners.Proofs.Signers.Histories
import JarSigners.Proofs.Signers.Invariance
import JarSigners.Proofs.Signing.Detached
import JarSigners.Proofs.Signing.FreshDigests
import JarSigners.Proofs.Signing.KeptEntries
import JarSigners.Proofs.Signing.Renewed
import JarSigners.Signing.Sample
