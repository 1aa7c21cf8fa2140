import AndroidBuild.RangeLib.Monotonic
import AndroidBuild.BlockImageDiff.StashLimit
import AndroidBuild.BlockImageDiff.Compute
import AndroidBuild.BlockImageDiff.TransferCover
import AndroidBuild.BlockImageDiff.Workers
import AndroidBuild.ProductConfig.StringAgreement
import AndroidBuild.ProductConfig.FlattenAgreement
import AndroidBuild.Compliance.ResolutionPaths
import AndroidBuild.Aconfig.ChainLookups
import AndroidBuild.Aconfig.SipReference
import AndroidBuild.Aconfig.StorageWrite
import AndroidBuild.Aconfig.GeneratePanics
import AndroidBuild.Aconfig.ParsedFlags
import AndroidBuild.SparseImg.FileMapTheorems
import AndroidBuild.VerityUtils.MinPartitionSize
import AndroidBuild.OtaFromTargetFiles.PartialUpdates
import AndroidBuild.Compliance.ShareConflicts
import AndroidBuild.Compliance.ReadRuns
import AndroidBuild.ProductConfig.Iterations
import AndroidBuild.ProductConfig.MakePatterns
import AndroidBuild.ProductConfig.CsvEncoding
import AndroidBuild.Fat16Copy.Allocation
import AndroidBuild.Fat16Copy.Commit
import AndroidBuild.FsConfig.Emission
import AndroidBuild.FsConfig.FileOrder
import AndroidBuild.FsConfig.AidCollisions
import AndroidBuild.FsConfig.FsEntry
import AndroidBuild.CheckPartitionSizes.SizeLimits
import AndroidBuild.Common.MergeInfoDicts
import AndroidBuild.DependencyMapper.FileEdges
import AndroidBuild.SignApk.Alignment
import AndroidBuild.Canoninja.Canonical
import AndroidBuild.MetadataIndex.Runs
import AndroidBuild.MergeMeta.PackageKeys
import AndroidBuild.BuildImage.DynamicSize
import AndroidBuild.SignApk.WholeFile
import AndroidBuild.EventLogTags.Merge
import AndroidBuild.Aconfig.DumpFormat
import AndroidBuild.Rbcrun.Caching
import AndroidBuild.Rbcrun.Hermetic
import AndroidBuild.Atree.ListMeaning
import AndroidBuild.Compliance.Termination
import AndroidBuild.Rbcrun.Cycles
import AndroidBuild.PostProcessProps.Faithfulness
import AndroidBuild.MergeUtils.ItemOwners
import AndroidBuild.BlockImageDiff.VertexPoints
import AndroidBuild.ApexUtils.Resigning
import AndroidBuild.CheckFlaggedApis.Verdicts
import AndroidBuild.ConvertFinalizedFlags.FirstLevels
import AndroidBuild.SignTargetFilesApks.KeyRules
import AndroidBuild.SignTargetFilesApks.AvbRoundTrip
import AndroidBuild.SignTargetFilesApks.RootDigest
import AndroidBuild.SignTargetFilesApks.CertSubstitution
