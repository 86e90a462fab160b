import DynamicRange.Ingest
import DynamicRange.Layout.Document
import DynamicRange.Report.Print
import DynamicRange.Traversal.Page
import DynamicRange.Traversal.Stepped
import DynamicRange.Proofs.Histogram.Interleaving
import DynamicRange.Proofs.Histogram.Percentiles
import DynamicRange.Proofs.Histogram.Reproduction
import DynamicRange.Proofs.Phaser.Barrier
import DynamicRange.Proofs.Recorder.Conservation
import DynamicRange.Proofs.Recorder.Sequential
import DynamicRange.Proofs.Traversal.LastStep
import DynamicRange.Proofs.Traversal.Levels
import DynamicRange.Proofs.Histogram.Backfill
import DynamicRange.Proofs.Layout.Derivation
import DynamicRange.Proofs.Histogram.Recounting
import DynamicRange.Proofs.Traversal.Listing
import DynamicRange.Proofs.Histogram.Congruence
import DynamicRange.Proofs.Ingest.Independence
import DynamicRange.Proofs.Histogram.Scaling
import DynamicRange.Proofs.Layout.Documents
import DynamicRange.Proofs.Layout.Rejection
import DynamicRange.Proofs.Traversal.Termination
import DynamicRange.Proofs.Traversal.Registers
import DynamicRange.Proofs.Layout.Words
import DynamicRange.Proofs.Report.Agreement
